import LSystem.Proofs.Nesting
import LSystem.Proofs.Walk.Step

/-! Reading words.

A walk either reads a word to its end (`Reads`) or reads what stands before some symbol to its end
and is stopped there (`walkFrom_eq_some_iff`). So every law about walks is a law about what was read,
and those are proved from one symbol to the next (`Reads.invariant`), also those that compare two
walks along a word (`walkFrom_related`). The first of them says what the state of a walk counts: its
branches are as deep as the word it has read, and its segments and lines are the strokes asked for so
far (`Reads.counts`). -/
namespace LSystem.Walk.Interpretation

variable (interpretation : Interpretation) (grammar : Grammar)

/-- What stops a walk at a symbol. -/
def stop? (index : Nat) (state : State) (symbol : Symbol) : Option WalkError :=
  fault? interpretation.config state.saved.size index (interpretation.opFor grammar symbol)

/-- The state after a symbol that does not stop a walk. -/
def step (index : Nat) (state : State) (symbol : Symbol) : State :=
  obey interpretation.config grammar symbol index state (interpretation.opFor grammar symbol)

theorem walkFrom_cons (index : Nat) (state : State) (symbol : Symbol) (rest : Word) :
    interpretation.walkFrom grammar index state (symbol :: rest) =
      match interpretation.stop? grammar index state symbol with
      | some fault => (state, some fault)
      | none => interpretation.walkFrom grammar (index + 1)
          (interpretation.step grammar index state symbol) rest := rfl

/-- A word is read to its end, from an index and a state on. -/
inductive Reads : Nat → State → Word → State → Prop where
  | nil {index state} : Reads index state [] state
  | cons {index state symbol rest last} : interpretation.stop? grammar index state symbol = none →
      Reads (index + 1) (interpretation.step grammar index state symbol) rest last →
      Reads index state (symbol :: rest) last

variable {interpretation grammar}

theorem walkFrom_eq_none_iff {index : Nat} {state last : State} {word : Word} :
    interpretation.walkFrom grammar index state word = (last, none) ↔
      Reads interpretation grammar index state word last := by
  constructor
  · intro h
    induction word generalizing index state with
    | nil =>
      cases h
      exact .nil
    | cons symbol rest ih =>
      rw [walkFrom_cons] at h
      split at h
      · cases h
      · rename_i hstop
        exact .cons hstop (ih h)
  · intro h
    induction h with
    | nil => rfl
    | cons hstop _ ih => rw [walkFrom_cons, hstop, ih]

/-- **A walk that is stopped has read all that stands before a symbol**, and nothing else. -/
theorem walkFrom_eq_some_iff {index : Nat} {state last : State} {word : Word} {fault : WalkError} :
    interpretation.walkFrom grammar index state word = (last, some fault) ↔
      ∃ read symbol rest, word = read ++ symbol :: rest ∧
        Reads interpretation grammar index state read last ∧
        interpretation.stop? grammar (index + read.length) last symbol = some fault := by
  constructor
  · intro h
    induction word generalizing index state with
    | nil => cases h
    | cons symbol rest ih =>
      rw [walkFrom_cons] at h
      split at h
      · rename_i hstop
        cases h
        exact ⟨[], symbol, rest, rfl, .nil, hstop⟩
      · rename_i hstop
        obtain ⟨read, next, later, rfl, hread, hnext⟩ := ih h
        refine ⟨symbol :: read, next, later, rfl, .cons hstop hread, ?_⟩
        rw [List.length_cons, Nat.add_comm read.length, ← Nat.add_assoc]
        exact hnext
  · rintro ⟨read, symbol, rest, rfl, hread, hstop⟩
    rw [walkFrom_append, walkFrom_eq_none_iff.mpr hread]
    show interpretation.walkFrom grammar (index + read.length) last (symbol :: rest) = _
    rw [walkFrom_cons, hstop]

namespace Reads

/-- A word is read in two parts. -/
theorem append_iff {index : Nat} {state last : State} {u v : Word} :
    Reads interpretation grammar index state (u ++ v) last ↔
      ∃ mid, Reads interpretation grammar index state u mid ∧
        Reads interpretation grammar (index + u.length) mid v last := by
  rw [← walkFrom_eq_none_iff, walkFrom_append]
  constructor
  · intro h
    cases hu : interpretation.walkFrom grammar index state u with
    | mk mid stop =>
      rw [hu] at h
      cases stop with
      | some fault => cases h
      | none => exact ⟨mid, walkFrom_eq_none_iff.mp hu, walkFrom_eq_none_iff.mp h⟩
  · rintro ⟨mid, hu, hv⟩
    rw [walkFrom_eq_none_iff.mpr hu]
    exact walkFrom_eq_none_iff.mpr hv

/-- What is read goes on with what is read from there. -/
theorem append {state mid last : State} {u v : Word}
    (hu : Reads interpretation grammar 0 state u mid)
    (hv : Reads interpretation grammar u.length mid v last) :
    Reads interpretation grammar 0 state (u ++ v) last :=
  append_iff.mpr ⟨mid, hu, by rw [Nat.zero_add]; exact hv⟩

/-- A walk goes on from what it has read. -/
theorem walkFrom_append {state mid : State} {u : Word}
    (h : Reads interpretation grammar 0 state u mid) (v : Word) :
    interpretation.walkFrom grammar 0 state (u ++ v) =
      interpretation.walkFrom grammar u.length mid v := by
  rw [Interpretation.walkFrom_append, walkFrom_eq_none_iff.mpr h]
  show interpretation.walkFrom grammar (0 + u.length) mid v = _
  rw [Nat.zero_add]

/-- No symbol of a word that is read stops the walk. -/
theorem at_symbol {index : Nat} {state last : State} {u v : Word} {symbol : Symbol}
    (h : Reads interpretation grammar index state (u ++ symbol :: v) last) :
    ∃ mid, Reads interpretation grammar index state u mid ∧
      interpretation.stop? grammar (index + u.length) mid symbol = none := by
  obtain ⟨mid, hu, hv⟩ := append_iff.mp h
  cases hv with
  | cons hstop _ => exact ⟨mid, hu, hstop⟩

/-- **What every symbol preserves holds of what was read.** -/
theorem invariant {index : Nat} {state last : State} {word : Word}
    (h : Reads interpretation grammar index state word last) (Inv : Word → State → Prop)
    (hstart : Inv [] state)
    (hstep : ∀ read symbol mid, Inv read mid →
      interpretation.stop? grammar (index + read.length) mid symbol = none →
      Inv (read ++ [symbol]) (interpretation.step grammar (index + read.length) mid symbol)) :
    Inv word last := by
  induction h generalizing Inv with
  | nil => exact hstart
  | @cons index state symbol rest last hstop _ ih =>
    refine ih (fun read mid => Inv (symbol :: read) mid) (hstep [] symbol state hstart hstop) ?_
    intro read next mid hread hnext
    have hindex : index + 1 + read.length = index + (symbol :: read).length := by
      rw [List.length_cons]
      omega
    rw [hindex] at hnext ⊢
    exact hstep (symbol :: read) next mid hread hnext

/-- What a symbol preserves in a walk that has read what stands before it holds of the whole walk. -/
theorem induction_begin {last : State} {word : Word}
    (h : Reads interpretation grammar 0 interpretation.begin word last) (Inv : Word → State → Prop)
    (hstart : Inv [] interpretation.begin)
    (hstep : ∀ read symbol mid, Reads interpretation grammar 0 interpretation.begin read mid →
      Inv read mid → interpretation.stop? grammar read.length mid symbol = none →
      Inv (read ++ [symbol]) (interpretation.step grammar read.length mid symbol)) :
    Inv word last := by
  refine (h.invariant (fun read mid =>
    Reads interpretation grammar 0 interpretation.begin read mid ∧ Inv read mid) ⟨.nil, hstart⟩ ?_).2
  rintro read symbol mid ⟨hread, hmid⟩ hstop
  rw [Nat.zero_add] at hstop ⊢
  exact ⟨hread.append (.cons hstop .nil), hstep read symbol mid hread hmid hstop⟩

/-- Commands are only added. -/
theorem commands {index : Nat} {state last : State} {word : Word}
    (h : Reads interpretation grammar index state word last) :
    ∃ added, last.commands = state.commands ++ added := by
  refine h.invariant (fun _ mid => ∃ added, mid.commands = state.commands ++ added)
    ⟨#[], by simp⟩ ?_
  intro read symbol mid hmid _
  obtain ⟨added, hadded⟩ := hmid
  obtain ⟨more, hmore⟩ := commands_obey interpretation.config grammar symbol (index + read.length)
    mid (interpretation.opFor grammar symbol)
  exact ⟨added ++ more, by rw [step, hmore, hadded, Array.append_assoc]⟩

end Reads

/-- Wherever a walk ends, it has read all that stands before. -/
theorem exists_reads (interpretation : Interpretation) (grammar : Grammar) (index : Nat)
    (state : State) (word : Word) : ∃ read, Reads interpretation grammar index state read
      (interpretation.walkFrom grammar index state word).1 := by
  cases hwalk : interpretation.walkFrom grammar index state word with
  | mk last stop =>
    cases stop with
    | none => exact ⟨word, walkFrom_eq_none_iff.mp hwalk⟩
    | some fault =>
      obtain ⟨read, _, _, _, hread, _⟩ := walkFrom_eq_some_iff.mp hwalk
      exact ⟨read, hread⟩

/-- **Two walks whose states stay related go on alike** along one word, at indices that may differ by a
constant: they read the same symbols, stop for corresponding reasons, and are related where they end. -/
theorem walkFrom_related {i j : Interpretation} {g h : Grammar} {count : Nat}
    {moved : WalkError → WalkError} {R : State → State → Prop}
    (hstop : ∀ {s t}, R s t → ∀ index symbol,
      j.stop? h (index + count) t symbol = (i.stop? g index s symbol).map moved)
    (hstep : ∀ {s t}, R s t → ∀ index symbol,
      R (i.step g index s symbol) (j.step h (index + count) t symbol))
    {s t : State} (hrelated : R s t) (index : Nat) (word : Word) :
    ∃ read a b stop, i.walkFrom g index s word = (a, stop) ∧
      j.walkFrom h (index + count) t word = (b, stop.map moved) ∧
      R a b ∧ Reads i g index s read a ∧ Reads j h (index + count) t read b := by
  induction word generalizing s t index with
  | nil => exact ⟨[], s, t, none, rfl, rfl, hrelated, .nil, .nil⟩
  | cons symbol rest ih =>
    have hsame := hstop hrelated index symbol
    rw [walkFrom_cons, walkFrom_cons, hsame]
    cases hquiet : i.stop? g index s symbol with
    | some fault => exact ⟨[], s, t, some fault, rfl, rfl, hrelated, .nil, .nil⟩
    | none =>
      rw [hquiet] at hsame
      have hindex : index + count + 1 = index + 1 + count := Nat.add_right_comm _ _ _
      obtain ⟨read, a, b, stop, hs, ht, hab, hreads, hreadt⟩ :=
        ih (hstep hrelated index symbol) (index + 1)
      rw [← hindex] at ht hreadt
      exact ⟨symbol :: read, a, b, stop, hs, ht, hab, .cons hquiet hreads, .cons hsame hreadt⟩

theorem walkFrom_commands (interpretation : Interpretation) (grammar : Grammar) (index : Nat)
    (state : State) (word : Word) :
    ∃ added, (interpretation.walkFrom grammar index state word).1.commands =
      state.commands ++ added := by
  obtain ⟨read, hread⟩ := exists_reads interpretation grammar index state word
  exact hread.commands

/-- A walk reads the word or is stopped at a symbol. -/
theorem reads_or_stops (interpretation : Interpretation) (grammar : Grammar) (word : Word) :
    (∃ last, Reads interpretation grammar 0 interpretation.begin word last) ∨
      ∃ read symbol rest mid fault, word = read ++ symbol :: rest ∧
        Reads interpretation grammar 0 interpretation.begin read mid ∧
        interpretation.stop? grammar read.length mid symbol = some fault := by
  cases hwalk : interpretation.walkFrom grammar 0 interpretation.begin word with
  | mk last stop =>
    cases stop with
    | none => exact .inl ⟨last, walkFrom_eq_none_iff.mp hwalk⟩
    | some fault =>
      obtain ⟨read, symbol, rest, hword, hread, hstop⟩ := walkFrom_eq_some_iff.mp hwalk
      rw [Nat.zero_add] at hstop
      exact .inr ⟨read, symbol, rest, last, fault, hword, hread, hstop⟩

theorem walk_of_invalid {fault : ConfigFault}
    (hvalid : interpretation.config.validate = .error fault) (word : Word) :
    interpretation.walk grammar word = ⟨.error (.invalidConfig fault), #[], #[]⟩ := by
  rw [walk, hvalid]

/-- A configuration that is refused names no symbol. -/
theorem position?_of_invalid {fault : ConfigFault}
    (hvalid : interpretation.config.validate = .error fault) :
    (WalkError.invalidConfig fault).position? = none := by
  unfold Config.validate at hvalid
  split at hvalid
  · cases hvalid
    rfl
  split at hvalid
  · cases hvalid
    rfl
  split at hvalid
  · cases hvalid
    rfl
  split at hvalid
  · cases hvalid
    rfl
  · cases hvalid

theorem walk_of_reads (hvalid : interpretation.config.validate = .ok ()) {word : Word} {last : State}
    (h : Reads interpretation grammar 0 interpretation.begin word last) :
    interpretation.walk grammar word =
      ⟨.ok ⟨last.segments, last.maxDepth, last.turtle⟩, last.commands, closing last⟩ := by
  rw [walk, hvalid]
  simp only [walkFrom_eq_none_iff.mpr h]

theorem walk_of_fault (hvalid : interpretation.config.validate = .ok ()) {word : Word} {last : State}
    {fault : WalkError}
    (h : interpretation.walkFrom grammar 0 interpretation.begin word = (last, some fault)) :
    interpretation.walk grammar word = ⟨.error fault, last.commands, last.log⟩ := by
  rw [walk, hvalid]
  simp only [h]

theorem walk_of_stops (hvalid : interpretation.config.validate = .ok ()) {read rest : Word}
    {symbol : Symbol} {mid : State} {fault : WalkError}
    (h : Reads interpretation grammar 0 interpretation.begin read mid)
    (hstop : interpretation.stop? grammar read.length mid symbol = some fault) :
    interpretation.walk grammar (read ++ symbol :: rest) = ⟨.error fault, mid.commands, mid.log⟩ := by
  have hwalk := walkFrom_eq_some_iff.mpr
    ⟨read, symbol, rest, rfl, h, by rw [Nat.zero_add]; exact hstop⟩
  exact walk_of_fault hvalid hwalk

/-- A complete walk has read its word. -/
theorem reads_of_ok {word : Word} {summary : Summary}
    (h : (interpretation.walk grammar word).result = .ok summary) :
    interpretation.config.validate = .ok () ∧
      ∃ last, Reads interpretation grammar 0 interpretation.begin word last := by
  cases hvalid : interpretation.config.validate with
  | error refused =>
    rw [walk_of_invalid hvalid] at h
    cases h
  | ok =>
    rcases reads_or_stops interpretation grammar word with
      hread | ⟨read, symbol, rest, mid, fault, rfl, hread, hstop⟩
    · exact ⟨rfl, hread⟩
    · rw [walk_of_stops hvalid hread hstop] at h
      cases h

/-- A walk that fails under an accepted configuration has read what stands before some symbol, and
fails with what stops it there. -/
theorem stops_of_error (hvalid : interpretation.config.validate = .ok ()) {word : Word}
    {fault : WalkError} (h : (interpretation.walk grammar word).result = .error fault) :
    ∃ read symbol rest mid, word = read ++ symbol :: rest ∧
      Reads interpretation grammar 0 interpretation.begin read mid ∧
      interpretation.stop? grammar read.length mid symbol = some fault := by
  rcases reads_or_stops interpretation grammar word with
    ⟨last, hread⟩ | ⟨read, symbol, rest, mid, stop, rfl, hread, hstop⟩
  · rw [walk_of_reads hvalid hread] at h
    cases h
  · rw [walk_of_stops hvalid hread hstop] at h
    cases h
    exact ⟨read, symbol, rest, mid, rfl, hread, hstop⟩

theorem walk_commands (hvalid : interpretation.config.validate = .ok ()) (word : Word) :
    (interpretation.walk grammar word).commands =
      (interpretation.walkFrom grammar 0 interpretation.begin word).1.commands := by
  rw [walk, hvalid]
  cases hwalk : interpretation.walkFrom grammar 0 interpretation.begin word with
  | mk last stop => cases stop <;> rfl

/-! ### Counts -/

variable (interpretation grammar)

/-- How much a symbol opens. -/
def level (symbol : Symbol) : Int := (interpretation.opFor grammar symbol).level

/-- How many symbols of a word ask for a stroke. -/
def draws (word : Word) : Nat :=
  word.countP fun symbol => decide (interpretation.opFor grammar symbol = .draw)

/-- The number of open branches before the symbol at an index. -/
def depthAt (word : Word) (index : Nat) : Int :=
  Word.depth (interpretation.level grammar) (word.take index)

theorem draws_snoc (word : Word) (symbol : Symbol) :
    interpretation.draws grammar (word ++ [symbol]) = interpretation.draws grammar word +
      if interpretation.opFor grammar symbol = .draw then 1 else 0 := by
  simp only [draws, List.countP_append, List.countP_singleton, decide_eq_true_eq]

/-- What the state of a walk that has read a word counts. -/
structure Counts (word : Word) (state : State) : Prop where
  depth : (state.saved.size : Int) = Word.depth (interpretation.level grammar) word
  deepest : state.maxDepth = Word.nesting (interpretation.level grammar) word
  segments : state.segments = interpretation.draws grammar word
  lines : lineCount state.commands = interpretation.draws grammar word

variable {interpretation grammar}

/-- One more symbol is counted. -/
theorem Counts.step {word : Word} {state : State} {symbol : Symbol} {index : Nat}
    (h : Counts interpretation grammar word state)
    (hstop : interpretation.stop? grammar index state symbol = none) :
    Counts interpretation grammar (word ++ [symbol])
      (interpretation.step grammar index state symbol) where
  depth := by
    rw [Word.depth_append, Word.depth_singleton, ← h.depth]
    exact size_obey interpretation.config grammar symbol index state hstop
  deepest := by
    have hmax := maxDepth_obey interpretation.config grammar symbol index state
      (interpretation.opFor grammar symbol)
    have hbound := Word.depth_take_le_nesting (interpretation.level grammar) word word.length
    rw [List.take_length] at hbound
    rw [Interpretation.step, hmax, Word.nesting_append, h.deepest, Word.nesting_cons, Word.nesting]
    have hdepth := h.depth
    by_cases hpush : interpretation.opFor grammar symbol = .push
    · have hlevel : interpretation.level grammar symbol = 1 := by rw [level, hpush]; rfl
      rw [if_pos hpush, hlevel]
      omega
    · have hlevel : interpretation.level grammar symbol ≤ 0 := Turtle.Op.level_le_zero hpush
      rw [if_neg hpush]
      omega
  segments := by
    rw [draws_snoc, ← h.segments]
    exact segments_obey interpretation.config grammar symbol index state _
  lines := by
    rw [draws_snoc, ← h.lines]
    exact lineCount_obey interpretation.config grammar symbol index state _

/-- **The state of a walk counts what was read.** -/
theorem Reads.counts {word : Word} {last : State}
    (h : Reads interpretation grammar 0 interpretation.begin word last) :
    Counts interpretation grammar word last :=
  h.invariant (Counts interpretation grammar) ⟨rfl, rfl, rfl, rfl⟩ fun _ _ _ hcounts hstop => hcounts.step hstop

end LSystem.Walk.Interpretation
