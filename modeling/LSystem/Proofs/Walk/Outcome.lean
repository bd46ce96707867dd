import LSystem.Proofs.Walk.Reading
import LSystem.Proofs.Walk.StrokeLength

/-! How walks come out.

A word has an obstacle at an index when the symbol there closes a branch and none is open, or opens
one at the depth limit, or opens one whose strokes have no finite length; how many branches are open
is the depth of what stands before the index. `walk_outcome` says that the first obstacle decides how
a walk comes out, with the underflow before the limit and the limit before the length, and that a
walk without one is complete. `walk_online` says that what a walk has done is never taken back by
what follows, and that a stopped walk is the complete walk along what stands before the obstacle. -/
namespace LSystem.Walk.Interpretation

open Turtle (Op)

variable (interpretation : Interpretation) (grammar : Grammar)

/-- The operation at an index of a word. -/
def opAt (word : Word) (index : Nat) : Option Op := word[index]?.map (interpretation.opFor grammar)

/-- A branch is closed where none is open. -/
def Unmatched (word : Word) (index : Nat) : Prop :=
  interpretation.opAt grammar word index = some .pop ∧ interpretation.depthAt grammar word index = 0

/-- A branch is opened at the depth limit. -/
def TooDeep (word : Word) (index : Nat) : Prop :=
  interpretation.opAt grammar word index = some .push ∧
    interpretation.config.maxDepth ≤ interpretation.depthAt grammar word index

/-- A branch is opened in which strokes have no finite length. -/
def Unbounded (word : Word) (index : Nat) : Prop :=
  interpretation.opAt grammar word index = some .push ∧
    (interpretation.config.lengthAtDepth
      (interpretation.depthAt grammar word index + 1).toNat).isFinite = false

/-- What a walk cannot get past. -/
def Obstacle (word : Word) (index : Nat) : Prop :=
  interpretation.Unmatched grammar word index ∨ interpretation.TooDeep grammar word index ∨
    interpretation.Unbounded grammar word index

/-- The obstacle that a walk meets first. -/
def FirstObstacle (word : Word) (index : Nat) : Prop :=
  interpretation.Obstacle grammar word index ∧
    ∀ earlier < index, ¬interpretation.Obstacle grammar word earlier

section Decidable
variable (word : Word) (index : Nat)

instance : Decidable (interpretation.Unmatched grammar word index) :=
  inferInstanceAs (Decidable (_ ∧ _))

instance : Decidable (interpretation.TooDeep grammar word index) :=
  inferInstanceAs (Decidable (_ ∧ _))

instance : Decidable (interpretation.Unbounded grammar word index) :=
  inferInstanceAs (Decidable (_ ∧ _))

instance : Decidable (interpretation.Obstacle grammar word index) :=
  inferInstanceAs (Decidable (_ ∨ _ ∨ _))

instance : Decidable (interpretation.FirstObstacle grammar word index) :=
  inferInstanceAs (Decidable (_ ∧ ∀ earlier < index, _))

end Decidable

variable {interpretation grammar}

theorem opAt_append (u v : Word) (symbol : Symbol) :
    interpretation.opAt grammar (u ++ symbol :: v) u.length =
      some (interpretation.opFor grammar symbol) := by
  simp [opAt]

theorem depthAt_append {u v : Word} {mid : State} (h : Counts interpretation grammar u mid) :
    interpretation.depthAt grammar (u ++ v) u.length = mid.saved.size := by
  rw [depthAt, List.take_left, h.depth]

theorem depthAt_succ {word : Word} {index : Nat} {op : Op}
    (h : interpretation.opAt grammar word index = some op) :
    interpretation.depthAt grammar word (index + 1) =
      interpretation.depthAt grammar word index + op.level := by
  obtain ⟨symbol, hsymbol, rfl⟩ := Option.map_eq_some_iff.mp h
  exact Word.depth_take_succ _ hsymbol

/-- The obstacles are what stops a walk, each with its own error. -/
theorem stop?_eq_some_iff {read : Word} {symbol : Symbol} {mid : State} {fault : WalkError}
    (h : Counts interpretation grammar read mid) (rest : Word) :
    interpretation.stop? grammar read.length mid symbol = some fault ↔
      let word := read ++ symbol :: rest
      let depth := (interpretation.depthAt grammar word read.length + 1).toNat
      (interpretation.Unmatched grammar word read.length ∧ fault = .stackUnderflow read.length) ∨
      (¬interpretation.Unmatched grammar word read.length ∧
        interpretation.TooDeep grammar word read.length ∧
        fault = .stackOverflow interpretation.config.maxDepth read.length) ∨
      (¬interpretation.Unmatched grammar word read.length ∧
        ¬interpretation.TooDeep grammar word read.length ∧
        interpretation.Unbounded grammar word read.length ∧
        fault = .invalidConfig (.strokeLength (interpretation.config.lengthAtDepth depth) depth
          read.length)) := by
  simp only [Unmatched, TooDeep, Unbounded, opAt_append, depthAt_append h, Option.some.injEq, stop?,
    fault?_eq_some_iff]
  have hdepth : ((mid.saved.size : Int) + 1).toNat = mid.saved.size + 1 := by omega
  have hpush (hop : interpretation.opFor grammar symbol = .push) :
      ¬(interpretation.opFor grammar symbol = .pop ∧ (mid.saved.size : Int) = 0) := by
    rw [hop]
    rintro ⟨hpop, -⟩
    cases hpop
  rw [hdepth]
  constructor
  · rintro (⟨hop, hsize, rfl⟩ | ⟨hop, hsize, rfl⟩ | ⟨hop, hsize, hlength, rfl⟩)
    · exact .inl ⟨⟨hop, by omega⟩, rfl⟩
    · exact .inr (.inl ⟨hpush hop, ⟨hop, by omega⟩, rfl⟩)
    · exact .inr (.inr ⟨hpush hop, fun hdeep => by omega, ⟨hop, hlength⟩, rfl⟩)
  · rintro (⟨⟨hop, hsize⟩, rfl⟩ | ⟨-, ⟨hop, hsize⟩, rfl⟩ | ⟨-, hdeep, ⟨hop, hlength⟩, rfl⟩)
    · exact .inl ⟨hop, by omega, rfl⟩
    · exact .inr (.inl ⟨hop, by omega, rfl⟩)
    · refine .inr (.inr ⟨hop, ?_, hlength, rfl⟩)
      exact Nat.lt_of_not_le fun hle => hdeep ⟨hop, by omega⟩

/-- An obstacle is what stops the walk that has read all before it. -/
theorem obstacle_iff {read : Word} {symbol : Symbol} {mid : State}
    (h : Counts interpretation grammar read mid) (rest : Word) :
    interpretation.Obstacle grammar (read ++ symbol :: rest) read.length ↔
      ∃ fault, interpretation.stop? grammar read.length mid symbol = some fault := by
  simp only [stop?_eq_some_iff h rest]
  constructor
  · intro hobstacle
    by_cases hunmatched : interpretation.Unmatched grammar (read ++ symbol :: rest) read.length
    · exact ⟨_, .inl ⟨hunmatched, rfl⟩⟩
    · by_cases hdeep : interpretation.TooDeep grammar (read ++ symbol :: rest) read.length
      · exact ⟨_, .inr (.inl ⟨hunmatched, hdeep, rfl⟩)⟩
      · have hunbounded := (hobstacle.resolve_left hunmatched).resolve_left hdeep
        exact ⟨_, .inr (.inr ⟨hunmatched, hdeep, hunbounded, rfl⟩)⟩
  · rintro ⟨fault, ⟨hunmatched, -⟩ | ⟨-, hdeep, -⟩ | ⟨-, -, hunbounded, -⟩⟩
    · exact .inl hunmatched
    · exact .inr (.inl hdeep)
    · exact .inr (.inr hunbounded)

theorem Obstacle.lt_length {word : Word} {index : Nat}
    (h : interpretation.Obstacle grammar word index) : index < word.length := by
  apply Nat.lt_of_not_le
  intro hle
  have hnone : interpretation.opAt grammar word index = none := by
    rw [opAt, List.getElem?_eq_none hle]
    rfl
  rcases h with ⟨hop, -⟩ | ⟨hop, -⟩ | ⟨hop, -⟩ <;> rw [hnone] at hop <;> cases hop

/-- There is no obstacle in what was read. -/
theorem Reads.clear {read : Word} {last : State} {index : Nat}
    (h : Reads interpretation grammar 0 interpretation.begin read last) (rest : Word)
    (hindex : index < read.length) :
    ¬interpretation.Obstacle grammar (read ++ rest) index := by
  obtain ⟨u, symbol, v, rfl, rfl⟩ := Word.exists_split hindex
  obtain ⟨mid, hu, hstop⟩ := h.at_symbol
  rw [List.append_assoc, List.cons_append, obstacle_iff hu.counts]
  rintro ⟨fault, hfault⟩
  rw [Nat.zero_add, hfault] at hstop
  cases hstop

/-- The first obstacle of a word is where its walk stops. -/
theorem FirstObstacle.stops {word : Word} {index : Nat}
    (h : interpretation.FirstObstacle grammar word index) :
    ∃ read symbol rest mid fault, word = read ++ symbol :: rest ∧ index = read.length ∧
      Reads interpretation grammar 0 interpretation.begin read mid ∧
      interpretation.stop? grammar read.length mid symbol = some fault := by
  rcases reads_or_stops interpretation grammar word with
    ⟨last, hread⟩ | ⟨read, symbol, rest, mid, fault, rfl, hread, hstop⟩
  · have hclear := hread.clear [] h.1.lt_length
    rw [List.append_nil] at hclear
    exact absurd h.1 hclear
  · have hobstacle := (obstacle_iff hread.counts rest).mpr ⟨fault, hstop⟩
    have hle : index ≤ read.length := Nat.le_of_not_lt fun hlt => h.2 _ hlt hobstacle
    have hge : read.length ≤ index := Nat.le_of_not_lt fun hlt => hread.clear _ hlt h.1
    exact ⟨read, symbol, rest, mid, fault, rfl, Nat.le_antisymm hle hge, hread, hstop⟩

/-- A word without an obstacle is read. -/
theorem reads_of_clear {word : Word} (h : ∀ index, ¬interpretation.Obstacle grammar word index) :
    ∃ last, Reads interpretation grammar 0 interpretation.begin word last := by
  rcases reads_or_stops interpretation grammar word with
    hread | ⟨read, symbol, rest, mid, fault, rfl, hread, hstop⟩
  · exact hread
  · exact absurd ((obstacle_iff hread.counts rest).mpr ⟨fault, hstop⟩) (h read.length)

/-- A well nested word has no obstacle when its nesting and its stroke lengths allow the walk. -/
theorem clear_of_balanced {word : Word} (hnested : Word.Balanced (interpretation.level grammar) word)
    (hdeep : Word.nesting (interpretation.level grammar) word ≤ interpretation.config.maxDepth)
    (hfinite : ∀ index, 0 < interpretation.depthAt grammar word index →
      (interpretation.config.lengthAtDepth
        (interpretation.depthAt grammar word index).toNat).isFinite = true) (index : Nat) :
    ¬interpretation.Obstacle grammar word index := by
  have hnext := hnested.nonneg (index + 1)
  have hbound := Word.depth_take_le_nesting (interpretation.level grammar) word (index + 1)
  have hnonneg := hnested.nonneg index
  rintro (⟨hop, hdepth⟩ | ⟨hop, hdepth⟩ | ⟨hop, hlength⟩) <;>
    have hsucc := depthAt_succ hop <;> simp only [Op.level, depthAt] at hsucc
  · unfold depthAt at hdepth
    omega
  · unfold depthAt at hdepth
    omega
  · have hlast := hfinite (index + 1) (by unfold depthAt; omega)
    rw [depthAt_succ hop, Op.level, hlength] at hlast
    cases hlast

/-- Without an obstacle no branch is deeper than the limit. -/
theorem depthAt_le_of_clear {word : Word}
    (h : ∀ index, ¬interpretation.Obstacle grammar word index) (index : Nat) :
    interpretation.depthAt grammar word index ≤ interpretation.config.maxDepth := by
  induction index with
  | zero => exact Int.natCast_nonneg _
  | succ index ih =>
    cases hop : interpretation.opAt grammar word index with
    | none =>
      have hend : word.length ≤ index := List.getElem?_eq_none_iff.mp (Option.map_eq_none_iff.mp hop)
      have hsame : word.take (index + 1) = word.take index := by
        rw [List.take_of_length_le hend, List.take_of_length_le (Nat.le_succ_of_le hend)]
      rw [depthAt, hsame]
      exact ih
    | some op =>
      rw [depthAt_succ hop]
      by_cases hpush : op = .push
      · subst hpush
        have hlt : ¬(interpretation.config.maxDepth : Int) ≤ interpretation.depthAt grammar word index :=
          fun hle => h index (.inr (.inl ⟨hop, hle⟩))
        have hlevel : Op.level .push = 1 := rfl
        omega
      · have := Op.level_le_zero hpush
        omega

/-- A walk begins with the commands of the walk along what it has read. -/
theorem walk_commands_of_reads (hvalid : interpretation.config.validate = .ok ()) {u : Word}
    {mid : State} (h : Reads interpretation grammar 0 interpretation.begin u mid) (v : Word) :
    ∃ added, (interpretation.walk grammar (u ++ v)).commands = mid.commands ++ added := by
  rw [walk_commands hvalid, walkFrom_append, walkFrom_eq_none_iff.mpr h]
  exact walkFrom_commands interpretation grammar _ mid v

/-! ### The course of a walk -/

/-- **How a walk comes out.** A configuration that is refused allows no command. Otherwise the first
obstacle decides, in the order underflow, limit, length, and the walk has drawn what was asked for
before it; without an obstacle the walk is complete, and its summary counts the whole word. -/
theorem walk_outcome (interpretation : Interpretation) (grammar : Grammar) (word : Word) :
    (∀ fault, interpretation.config.validate = .error fault →
      (interpretation.walk grammar word).result = .error (.invalidConfig fault) ∧
        (interpretation.walk grammar word).commands = #[]) ∧
    (interpretation.config.validate = .ok () →
      (∀ index, interpretation.FirstObstacle grammar word index →
        (interpretation.Unmatched grammar word index →
          (interpretation.walk grammar word).result = .error (.stackUnderflow index)) ∧
        (¬interpretation.Unmatched grammar word index → interpretation.TooDeep grammar word index →
          (interpretation.walk grammar word).result =
            .error (.stackOverflow interpretation.config.maxDepth index)) ∧
        (¬interpretation.Unmatched grammar word index →
          ¬interpretation.TooDeep grammar word index →
          let depth := (interpretation.depthAt grammar word index + 1).toNat
          (interpretation.walk grammar word).result = .error (.invalidConfig
            (.strokeLength (interpretation.config.lengthAtDepth depth) depth index))) ∧
        lineCount (interpretation.walk grammar word).commands =
          interpretation.draws grammar (word.take index)) ∧
      ((∀ index, ¬interpretation.Obstacle grammar word index) →
        ∃ summary, (interpretation.walk grammar word).result = .ok summary ∧
          summary.segments = interpretation.draws grammar word ∧
          lineCount (interpretation.walk grammar word).commands =
            interpretation.draws grammar word ∧
          (∀ index, interpretation.depthAt grammar word index ≤ summary.maxDepth) ∧
          (∃ index ≤ word.length, interpretation.depthAt grammar word index = summary.maxDepth) ∧
          summary.maxDepth ≤ interpretation.config.maxDepth)) := by
  refine ⟨fun fault hfault => ?_, fun hvalid => ⟨fun index hfirst => ?_, fun hclear => ?_⟩⟩
  · rw [walk_of_invalid hfault]
    exact ⟨rfl, rfl⟩
  · obtain ⟨read, symbol, rest, mid, fault, rfl, rfl, hread, hstop⟩ := hfirst.stops
    rw [walk_of_stops hvalid hread hstop, List.take_left]
    have hfault := (stop?_eq_some_iff hread.counts rest).mp hstop
    refine ⟨?_, ?_, ?_, hread.counts.lines⟩
    · intro hunmatched
      rcases hfault with ⟨-, rfl⟩ | ⟨hnot, -⟩ | ⟨hnot, -⟩
      · rfl
      · exact absurd hunmatched hnot
      · exact absurd hunmatched hnot
    · intro hmatched hdeep
      rcases hfault with ⟨hunmatched, -⟩ | ⟨-, -, rfl⟩ | ⟨-, hnot, -⟩
      · exact absurd hunmatched hmatched
      · rfl
      · exact absurd hdeep hnot
    · intro hmatched hshallow
      rcases hfault with ⟨hunmatched, -⟩ | ⟨-, hdeep, -⟩ | ⟨-, -, -, rfl⟩
      · exact absurd hunmatched hmatched
      · exact absurd hdeep hshallow
      · rfl
  · obtain ⟨last, hread⟩ := reads_of_clear hclear
    have hcounts := hread.counts
    rw [walk_of_reads hvalid hread]
    refine ⟨_, rfl, hcounts.segments, hcounts.lines, fun index => ?_, ?_, ?_⟩
    · rw [hcounts.deepest]
      exact Word.depth_take_le_nesting _ word index
    · rw [hcounts.deepest]
      exact Word.exists_depth_eq_nesting _ word
    · have := (Word.nesting_le_iff _).mpr (depthAt_le_of_clear hclear)
      rw [← hcounts.deepest] at this
      exact Int.ofNat_le.mp this

/-- A twig with a colored branch and another one on it. -/
def twig : Grammar where
  start := "F[+1F[-F]F]F".toList
  angle := 90
  generations := 0
  productions := .empty
  colors := Table.empty.insert '1' (.hsb 120 100 61)
  angle_isFinite := by decide +kernel
  inhabited := .inl (by decide +kernel)
  colors_free := by
    intro key hkey
    rw [List.mem_singleton.mp hkey]
    decide

theorem walk_twig_limited :
    let interpretation := standard { maxDepth := 1 }
    interpretation.FirstObstacle twig twig.start 5 ∧
      (interpretation.walk twig twig.start).result = .error (.stackOverflow 1 5) ∧
      lineCount (interpretation.walk twig twig.start).commands = 2 := by
  intro interpretation
  have hvalid : interpretation.config.validate = .ok () :=
    Config.validate_eq_ok_iff.mpr (by decide +kernel)
  have hfirst : interpretation.FirstObstacle twig twig.start 5 := by decide +kernel
  have hmatched : ¬interpretation.Unmatched twig twig.start 5 := by decide +kernel
  have hdeep : interpretation.TooDeep twig twig.start 5 := by decide +kernel
  obtain ⟨-, hlimit, -, hlines⟩ := ((walk_outcome interpretation twig twig.start).2 hvalid).1 5 hfirst
  have hdraws : interpretation.draws twig (twig.start.take 5) = 2 := by decide +kernel
  exact ⟨hfirst, hlimit hmatched hdeep, hlines.trans hdraws⟩

/-- **Walks are online.** A walk that fails fails alike whatever follows, a complete walk has issued
the first commands of every longer one, and a walk that stops under an accepted configuration has
done what the complete walk along the symbols before the stop does. -/
theorem walk_online (interpretation : Interpretation) (grammar : Grammar) (u v word : Word) :
    (∀ fault, (interpretation.walk grammar u).result = .error fault →
      (interpretation.walk grammar (u ++ v)).result = .error fault ∧
        (interpretation.walk grammar (u ++ v)).commands = (interpretation.walk grammar u).commands) ∧
    (∀ summary, (interpretation.walk grammar u).result = .ok summary →
      ∃ added, (interpretation.walk grammar (u ++ v)).commands =
        (interpretation.walk grammar u).commands ++ added) ∧
    (∀ fault, interpretation.config.validate = .ok () →
      (interpretation.walk grammar word).result = .error fault →
      ∃ index < word.length, fault.position? = some index ∧
        (∃ summary, (interpretation.walk grammar (word.take index)).result = .ok summary) ∧
        (interpretation.walk grammar (word.take index)).commands =
          (interpretation.walk grammar word).commands) := by
  refine ⟨fun fault hfault => ?_, fun summary hsummary => ?_, fun fault hvalid hfault => ?_⟩
  · cases hvalid : interpretation.config.validate with
    | error refused =>
      rw [walk_of_invalid hvalid] at hfault ⊢
      rw [walk_of_invalid hvalid]
      exact ⟨hfault, rfl⟩
    | ok =>
      obtain ⟨read, symbol, rest, mid, rfl, hread, hstop⟩ := stops_of_error hvalid hfault
      rw [List.append_assoc, List.cons_append, walk_of_stops hvalid hread hstop,
        walk_of_stops hvalid hread hstop]
      exact ⟨rfl, rfl⟩
  · obtain ⟨hvalid, last, hread⟩ := reads_of_ok hsummary
    rw [walk_of_reads hvalid hread]
    exact walk_commands_of_reads hvalid hread v
  · obtain ⟨read, symbol, rest, mid, rfl, hread, hstop⟩ := stops_of_error hvalid hfault
    refine ⟨read.length, ?_, fault?_position hstop, ?_⟩
    · rw [List.length_append, List.length_cons]
      omega
    · rw [List.take_left, walk_of_reads hvalid hread, walk_of_stops hvalid hread hstop]
      exact ⟨⟨_, rfl⟩, rfl⟩

end LSystem.Walk.Interpretation
