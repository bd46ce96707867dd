import LSystem.Proofs.Walk.Canvases
import LSystem.Proofs.Walk.Scope
import LSystem.Proofs.Walk.Transcript

/-! What words mean to a turtle.

A symbol means the operation it resolves to and, if it is a color symbol, the color it takes or that
there is none; a symbol that resolves to nothing has no meaning. Walks depend on symbols through their
meanings alone: what one walk reads, another reads with any words between that have no meaning
(`Reads.of_meanings`), and where one is stopped, the other is stopped for the same reason. So words of
one meaning, be they written in different alphabets, lead to the same commands and the same summary or
error; only indices tell how a word is written (`outcome_of_meanings`). -/
namespace LSystem

/-- The record without the index it names. -/
def LogRecord.unplaced : LogRecord → LogRecord
  | unknownColor symbol _ => unknownColor symbol 0
  | record => record

end LSystem

namespace LSystem.Walk

open Turtle (Op)

/-- The same error, at the symbol with another index. -/
def WalkError.moveTo (position : Nat) : WalkError → WalkError := mapPosition fun _ => position

/-- The state without its log. -/
def State.unlogged (state : State) : State := { state with log := #[] }

/-- What a walk tells of its last state, but for the log. -/
theorem told_of_unlogged {s t : State} (hstate : s.unlogged = t.unlogged) :
    s.commands = t.commands ∧
      (⟨s.segments, s.maxDepth, s.turtle⟩ : Summary) = ⟨t.segments, t.maxDepth, t.turtle⟩ := by
  simp only [State.unlogged, State.mk.injEq] at hstate
  obtain ⟨hturtle, -, -, hsegments, hdepth, hcommands, -⟩ := hstate
  exact ⟨hcommands, by rw [hsegments, hdepth, hturtle]⟩

/-- An operation looks at the color of its symbol and the angle of the grammar, and not at the log. -/
theorem unlogged_obey {g h : Grammar} (hangle : g.angle = h.angle) (config : Config) {s t : State}
    (hstate : s.unlogged = t.unlogged) {a b : Symbol} {op : Op}
    (hgiven : Interpretation.given g a op = Interpretation.given h b op) (i j : Nat) :
    (obey config g a i s op).unlogged = (obey config h b j t op).unlogged := by
  obtain ⟨turtle, saved, issued, segments, maxDepth, commands, log⟩ := s
  obtain ⟨turtle', saved', issued', segments', maxDepth', commands', log'⟩ := t
  simp only [State.unlogged, State.mk.injEq] at hstate
  obtain ⟨rfl, rfl, rfl, rfl, rfl, rfl, -⟩ := hstate
  cases op with
  | draw =>
    simp only [obey, State.draw, State.issue, State.unlogged]
    split <;> rfl
  | turn factor => simp only [obey, State.unlogged, hangle]
  | setColor =>
    have hcolor : g.color? a = h.color? b := hgiven
    simp only [obey, hcolor]
    cases h.color? b <;> rfl
  | _ => rfl

namespace Interpretation

/-- The operation that a symbol resolves to, and the color it takes if it is a color symbol that has
one. -/
def meaning (interpretation : Interpretation) (grammar : Grammar) (symbol : Symbol) :
    Op × Option Color :=
  let op := interpretation.opFor grammar symbol
  (op, given grammar symbol op)

/-- The word without the symbols that resolve to nothing. -/
def bare (interpretation : Interpretation) (grammar : Grammar) (word : Word) : Word :=
  word.filter fun symbol => decide (interpretation.opFor grammar symbol ≠ .ignore)

/-- The meanings of the symbols that have one, in order. -/
def meanings (interpretation : Interpretation) (grammar : Grammar) (word : Word) :
    List (Op × Option Color) :=
  (interpretation.bare grammar word).map (interpretation.meaning grammar)

variable {i j : Interpretation} {g h : Grammar}

theorem bare_cons_of_ignore {symbol : Symbol} (hop : i.opFor g symbol = .ignore) (rest : Word) :
    i.bare g (symbol :: rest) = i.bare g rest :=
  List.filter_cons_of_neg (by simp [hop])

theorem bare_cons_of_ne {symbol : Symbol} (hop : i.opFor g symbol ≠ .ignore) (rest : Word) :
    i.bare g (symbol :: rest) = symbol :: i.bare g rest :=
  List.filter_cons_of_pos (by simp [hop])

theorem bare_eq_nil_iff {word : Word} :
    i.bare g word = [] ↔ ∀ symbol ∈ word, i.opFor g symbol = .ignore := by
  simp [bare, List.filter_eq_nil_iff]

theorem bare_append (u v : Word) : i.bare g (u ++ v) = i.bare g u ++ i.bare g v :=
  List.filter_append ..

theorem meanings_append (u v : Word) :
    i.meanings g (u ++ v) = i.meanings g u ++ i.meanings g v := by
  rw [meanings, bare_append, List.map_append]
  rfl

theorem meanings_cons_of_ne {symbol : Symbol} (hop : i.opFor g symbol ≠ .ignore) (rest : Word) :
    i.meanings g (symbol :: rest) = i.meaning g symbol :: i.meanings g rest := by
  rw [meanings, bare_cons_of_ne hop]
  rfl

/-- The first meaning of a word stands behind symbols that have none. -/
theorem exists_of_meanings_eq_cons {word : Word} {meaning : Op × Option Color}
    {later : List (Op × Option Color)} (hword : i.meanings g word = meaning :: later) :
    ∃ silent symbol rest, word = silent ++ symbol :: rest ∧ i.bare g silent = [] ∧
      i.opFor g symbol ≠ .ignore ∧ i.meaning g symbol = meaning ∧ i.meanings g rest = later := by
  obtain ⟨symbol, kept, hbare, hsymbol, hkept⟩ := List.map_eq_cons_iff.mp hword
  obtain ⟨silent, rest, rfl, hsilent, hop, rfl⟩ := List.filter_eq_cons_iff.mp hbare
  refine ⟨silent, symbol, rest, rfl, List.filter_eq_nil_iff.mpr hsilent, ?_, hsymbol, hkept⟩
  exact of_decide_eq_true hop

/-- Words of one meaning are split at the same meaning. -/
theorem exists_of_meanings_eq_append {u v rest : Word} {symbol : Symbol}
    (hop : i.opFor g symbol ≠ .ignore)
    (hmeanings : i.meanings g (u ++ symbol :: rest) = j.meanings h v) :
    ∃ read other later, v = read ++ other :: later ∧ i.meanings g u = j.meanings h read ∧
      j.opFor h other ≠ .ignore ∧ i.meaning g symbol = j.meaning h other := by
  rw [meanings_append, meanings_cons_of_ne hop] at hmeanings
  obtain ⟨first, second, hbare, hfirst, hsecond⟩ := List.map_eq_append_iff.mp hmeanings.symm
  obtain ⟨read, after, rfl, rfl, rfl⟩ := List.filter_eq_append_iff.mp hbare
  obtain ⟨silent, other, later, rfl, hsilent, hother, hmeaning, -⟩ :=
    exists_of_meanings_eq_cons hsecond
  refine ⟨read ++ silent, other, later, (List.append_assoc _ _ _).symm, ?_, hother, hmeaning.symm⟩
  have hnothing : j.meanings h silent = [] := congrArg (List.map _) hsilent
  rw [meanings_append, hnothing, List.append_nil]
  exact hfirst.symm

/-- Symbols without a meaning are read and leave no trace. -/
theorem reads_of_bare_eq_nil {word : Word} (hword : i.bare g word = []) (index : Nat)
    (state : State) : Reads i g index state word state := by
  rw [bare_eq_nil_iff] at hword
  induction word generalizing index with
  | nil => exact .nil
  | cons symbol rest ih =>
    rw [List.forall_mem_cons] at hword
    have hstop : i.stop? g index state symbol = none := by rw [stop?, hword.1]; rfl
    have hstep : i.step g index state symbol = state := by rw [step, hword.1]; rfl
    refine .cons hstop ?_
    rw [hstep]
    exact ih hword.2 (index + 1)

/-! ### Walks along words of one meaning -/

section Alike
variable (hconfig : i.config = j.config) (hangle : g.angle = h.angle) {s t : State}
  (hstate : s.unlogged = t.unlogged) {a b : Symbol} (hmeaning : i.meaning g a = j.meaning h b)
  (p q : Nat)
include hconfig hstate hmeaning

/-- Symbols of one meaning stop a walk for one reason. -/
theorem stop?_of_meaning :
    j.stop? h q t b = (i.stop? g p s a).map (WalkError.moveTo q) := by
  have hop : i.opFor g a = j.opFor h b := congrArg Prod.fst hmeaning
  have hsaved : s.unlogged.saved = t.unlogged.saved := congrArg State.saved hstate
  have hsize : s.saved.size = t.saved.size := congrArg Array.size hsaved
  rw [stop?, stop?, hop, hconfig, hsize]
  exact fault?_move j.config t.saved.size p (fun _ => q) _

include hangle in
/-- Symbols of one meaning do the same. -/
theorem step_of_meaning : (i.step g p s a).unlogged = (j.step h q t b).unlogged := by
  have hop : i.opFor g a = j.opFor h b := congrArg Prod.fst hmeaning
  have hgiven : given g a (i.opFor g a) = given h b (j.opFor h b) := congrArg Prod.snd hmeaning
  rw [hop] at hgiven
  rw [step, step, hop, hconfig]
  exact unlogged_obey hangle _ hstate hgiven p q

end Alike

/-- **What one walk reads, another reads in words of the same meaning.** -/
theorem Reads.of_meanings (hconfig : i.config = j.config) (hangle : g.angle = h.angle) {p : Nat}
    {s last : State} {u : Word} (hreads : Reads i g p s u last) {t : State}
    (hstate : s.unlogged = t.unlogged) {v : Word} (hmeanings : i.meanings g u = j.meanings h v)
    (q : Nat) : ∃ last', Reads j h q t v last' ∧ last.unlogged = last'.unlogged := by
  induction hreads generalizing t v q with
  | nil =>
    have hnothing : j.bare h v = [] := List.map_eq_nil_iff.mp hmeanings.symm
    exact ⟨t, reads_of_bare_eq_nil hnothing q t, hstate⟩
  | @cons p s symbol rest last hstop _ ih =>
    by_cases hop : i.opFor g symbol = .ignore
    · have hstep : i.step g p s symbol = s := by rw [step, hop]; rfl
      rw [meanings, bare_cons_of_ignore hop] at hmeanings
      exact ih (by rw [hstep]; exact hstate) hmeanings q
    · rw [meanings_cons_of_ne hop] at hmeanings
      obtain ⟨silent, other, later, rfl, hsilent, -, hmeaning, hlater⟩ :=
        exists_of_meanings_eq_cons hmeanings.symm
      have hquiet : j.stop? h (q + silent.length) t other = none := by
        rw [stop?_of_meaning hconfig hstate hmeaning.symm p (q + silent.length), hstop]
        rfl
      obtain ⟨last', hread, hlast⟩ :=
        ih (step_of_meaning hconfig hangle hstate hmeaning.symm p (q + silent.length)) hlater.symm
          (q + silent.length + 1)
      exact ⟨last', append_iff.mpr ⟨t, reads_of_bare_eq_nil hsilent q t, .cons hquiet hread⟩, hlast⟩

/-! ### Logs -/

/-- The records of unknown colors, but for their indices, do not depend on symbols without a
meaning. -/
theorem unplaced_unknownColors (index : Nat) (word : Word) :
    (i.unknownColors g index word).map LogRecord.unplaced =
      (i.bare g word).flatMap fun symbol => reported g symbol 0 (i.opFor g symbol) := by
  induction word generalizing index with
  | nil => rfl
  | cons symbol rest ih =>
    have hreported : (reported g symbol index (i.opFor g symbol)).map LogRecord.unplaced =
        reported g symbol 0 (i.opFor g symbol) := by
      unfold reported
      split <;> rfl
    rw [unknownColors, List.map_append, ih, hreported]
    by_cases hop : i.opFor g symbol = .ignore
    · rw [bare_cons_of_ignore hop, hop]
      rfl
    · rw [bare_cons_of_ne hop, List.flatMap_cons]

/-- The log of what was read, but for indices. -/
theorem Reads.unplaced_log {word : Word} {last : State} (hreads : Reads i g 0 i.begin word last) :
    last.log.toList.map LogRecord.unplaced =
      (i.bare g word).flatMap fun symbol => reported g symbol 0 (i.opFor g symbol) := by
  have hbegin : i.begin.log = #[] := rfl
  rw [hreads.log, hbegin, Array.empty_append, List.toList_toArray, unplaced_unknownColors]

/-- What a complete walk reports at its end depends on its log and its counts. -/
theorem unplaced_closing {s t : State} (hstate : s.unlogged = t.unlogged)
    (hlog : s.log.toList.map LogRecord.unplaced = t.log.toList.map LogRecord.unplaced) :
    (closing s).toList.map LogRecord.unplaced = (closing t).toList.map LogRecord.unplaced := by
  obtain ⟨turtle, saved, issued, segments, maxDepth, commands, log⟩ := s
  obtain ⟨turtle', saved', issued', segments', maxDepth', commands', log'⟩ := t
  simp only [State.unlogged, State.mk.injEq] at hstate
  obtain ⟨rfl, rfl, rfl, rfl, rfl, rfl, -⟩ := hstate
  unfold closing
  cases saved.isEmpty <;> simp [hlog]

end Interpretation

/-! ### Tasks of one meaning -/

namespace Task

open Interpretation

/-- The meanings of the word of a task. -/
def meanings (task : Task) : List (Op × Option Color) :=
  task.interpretation.meanings task.grammar task.word

/-- The symbol at an index of one task corresponds to that at an index of another: they mean the same
and stand behind words of one meaning. -/
structure Corresponds (a b : Task) (p q : Nat) : Prop where
  before : a.interpretation.meanings a.grammar (a.word.take p) =
    b.interpretation.meanings b.grammar (b.word.take q)
  symbol : ∃ x y, a.word[p]? = some x ∧ b.word[q]? = some y ∧
    a.interpretation.opFor a.grammar x ≠ .ignore ∧
    a.interpretation.meaning a.grammar x = b.interpretation.meaning b.grammar y

/-- Two tasks take one course: they issue the same commands, and come to the same summary or are
stopped by the same error at corresponding symbols. -/
structure SameCourse (a b : Task) : Prop where
  commands : a.outcome.commands = b.outcome.commands
  result : (∃ summary, a.outcome.result = .ok summary ∧ b.outcome.result = .ok summary) ∨
    ∃ fault p q, a.outcome.result = .error fault ∧ fault.position? = some p ∧
      b.outcome.result = .error (fault.moveTo q) ∧ a.Corresponds b p q

/-- The logs of two tasks tell the same, but for indices. -/
def SameLog (a b : Task) : Prop :=
  a.outcome.log.toList.map LogRecord.unplaced = b.outcome.log.toList.map LogRecord.unplaced

variable {a b : Task}

/-- Two tasks are read side by side, both to the end or both up to symbols that mean the same, where
they are stopped. -/
inductive Paired (a b : Task) : Prop where
  | complete {last last' : State} : last.unlogged = last'.unlogged →
      Reads a.interpretation a.grammar 0 a.interpretation.begin a.word last →
      Reads b.interpretation b.grammar 0 b.interpretation.begin b.word last' → Paired a b
  | stopped {read read' rest rest' : Word} {symbol symbol' : Symbol} {mid mid' : State}
      {fault : WalkError} : mid.unlogged = mid'.unlogged →
      a.word = read ++ symbol :: rest → b.word = read' ++ symbol' :: rest' →
      Reads a.interpretation a.grammar 0 a.interpretation.begin read mid →
      Reads b.interpretation b.grammar 0 b.interpretation.begin read' mid' →
      a.interpretation.stop? a.grammar read.length mid symbol = some fault →
      b.interpretation.stop? b.grammar read'.length mid' symbol' =
        some (fault.moveTo read'.length) →
      a.interpretation.meanings a.grammar read = b.interpretation.meanings b.grammar read' →
      a.interpretation.opFor a.grammar symbol ≠ .ignore →
      a.interpretation.meaning a.grammar symbol = b.interpretation.meaning b.grammar symbol' →
      Paired a b

theorem paired_of_meanings (hconfig : a.interpretation.config = b.interpretation.config)
    (hangle : a.grammar.angle = b.grammar.angle) (hmeanings : a.meanings = b.meanings) :
    Paired a b := by
  have hbegin : a.interpretation.begin.unlogged = b.interpretation.begin.unlogged := by
    rw [begin, begin, hconfig]
  rcases reads_or_stops a.interpretation a.grammar a.word with
    ⟨last, hread⟩ | ⟨read, symbol, rest, mid, fault, hword, hread, hstop⟩
  · obtain ⟨last', hread', hlast⟩ := hread.of_meanings hconfig hangle hbegin hmeanings 0
    exact .complete hlast hread hread'
  · have hop : a.interpretation.opFor a.grammar symbol ≠ .ignore := fun hignore => by
      rw [stop?, hignore] at hstop
      cases hstop
    rw [meanings, hword] at hmeanings
    obtain ⟨read', symbol', rest', hword', hbefore, -, hmeaning⟩ :=
      exists_of_meanings_eq_append hop hmeanings
    obtain ⟨mid', hread', hmid⟩ := hread.of_meanings hconfig hangle hbegin hbefore 0
    have hstop' := stop?_of_meaning hconfig hmid hmeaning read.length read'.length
    rw [hstop] at hstop'
    exact .stopped hmid hword hword' hread hread' hstop hstop' hbefore hop hmeaning

/-- A task that is stopped at a symbol. -/
theorem outcome_of_stops (hvalid : a.interpretation.config.validate = .ok ()) {read rest : Word}
    {symbol : Symbol} {mid : State} {fault : WalkError} (hword : a.word = read ++ symbol :: rest)
    (hread : Reads a.interpretation a.grammar 0 a.interpretation.begin read mid)
    (hstop : a.interpretation.stop? a.grammar read.length mid symbol = some fault) :
    a.outcome = ⟨.error fault, mid.commands, mid.log⟩ := by
  rw [outcome, hword]
  exact walk_of_stops hvalid hread hstop

theorem sameCourse_of_meanings (hvalid : a.interpretation.config.validate = .ok ())
    (hconfig : a.interpretation.config = b.interpretation.config)
    (hangle : a.grammar.angle = b.grammar.angle) (hmeanings : a.meanings = b.meanings) :
    a.SameCourse b := by
  have hvalid' : b.interpretation.config.validate = .ok () := hconfig ▸ hvalid
  cases paired_of_meanings hconfig hangle hmeanings with
  | complete hlast hread hread' =>
    have ha : a.outcome = _ := walk_of_reads hvalid hread
    have hb : b.outcome = _ := walk_of_reads hvalid' hread'
    obtain ⟨hcommands, hsummary⟩ := told_of_unlogged hlast
    exact ⟨by rw [ha, hb, hcommands], .inl ⟨_, by rw [ha], by rw [hb, hsummary]⟩⟩
  | @stopped read read' _ _ symbol symbol' _ _ fault hmid hword hword' hread hread' hstop hstop' hbefore
      hop hmeaning =>
    have ha := outcome_of_stops hvalid hword hread hstop
    have hb := outcome_of_stops hvalid' hword' hread' hstop'
    refine ⟨by rw [ha, hb, (told_of_unlogged hmid).1], .inr ⟨fault, read.length, read'.length,
      by rw [ha], fault?_position hstop, by rw [hb], ?_, symbol, symbol', ?_, ?_, hop, hmeaning⟩⟩
    · rw [hword, hword', List.take_left, List.take_left]
      exact hbefore
    · simp [hword]
    · simp [hword']

/-- Symbols that resolve to nothing change no record but its index. -/
theorem sameLog_of_bare {word : Word} (hvalid : a.interpretation.config.validate = .ok ())
    (hbare : a.interpretation.bare a.grammar word = a.interpretation.bare a.grammar a.word) :
    a.SameLog { a with word } := by
  have hmeanings : a.meanings = ({ a with word } : Task).meanings :=
    congrArg (List.map (a.interpretation.meaning a.grammar)) hbare.symm
  cases paired_of_meanings (a := a) (b := { a with word }) rfl rfl hmeanings with
  | complete hlast hread hread' =>
    have ha : a.outcome = _ := walk_of_reads hvalid hread
    have hb : ({ a with word } : Task).outcome = _ := walk_of_reads hvalid hread'
    rw [SameLog, ha, hb]
    apply unplaced_closing hlast
    rw [hread.unplaced_log, hread'.unplaced_log]
    exact congrArg _ hbare.symm
  | @stopped read read' _ _ _ _ _ _ _ _ hword hword' hread hread' hstop hstop' hbefore _ _ =>
    -- What was read is of one length without the symbols that mean nothing, so it is the same.
    have hsame : a.interpretation.bare a.grammar read = a.interpretation.bare a.grammar read' := by
      change word = _ at hword'
      rw [hword, hword', bare_append, bare_append] at hbare
      have hlength := congrArg List.length hbefore
      rw [Interpretation.meanings, Interpretation.meanings, List.length_map, List.length_map] at hlength
      exact (List.append_inj_left hbare hlength.symm).symm
    rw [SameLog, outcome_of_stops hvalid hword hread hstop,
      outcome_of_stops (a := { a with word }) hvalid hword' hread' hstop', hread.unplaced_log,
      hread'.unplaced_log, hsame]

/-- **Walks depend on meanings alone.** Two words, under interpretations with one accepted configuration
and grammars with one angle, whose symbols mean the same in the same order once those that resolve to
nothing are left out, lead to the same commands, and to the same summary or the same error at
corresponding symbols. In particular words that differ in symbols without a meaning only take one
course, and their logs differ in indices only. -/
theorem outcome_of_meanings {a b : Task} (hvalid : a.interpretation.config.validate = .ok ())
    (hconfig : a.interpretation.config = b.interpretation.config)
    (hangle : a.grammar.angle = b.grammar.angle) (hmeanings : a.meanings = b.meanings) :
    a.SameCourse b ∧
    ∀ word, a.interpretation.bare a.grammar word = a.interpretation.bare a.grammar a.word →
      a.SameCourse { a with word } ∧ a.SameLog { a with word } := by
  refine ⟨sameCourse_of_meanings hvalid hconfig hangle hmeanings, fun word hbare => ⟨?_, ?_⟩⟩
  · refine sameCourse_of_meanings (b := { a with word }) hvalid rfl rfl ?_
    exact congrArg (List.map (a.interpretation.meaning a.grammar)) hbare.symm
  · exact sameLog_of_bare hvalid hbare

/-- A twig whose color stands under another symbol. -/
def twigOfLetters : Grammar :=
  { twig with
    start := ['G']
    colors := Table.empty.insert 'c' (.hsb 120 100 61)
    inhabited := .inl (List.cons_ne_nil _ _)
    colors_free := by
      intro key hkey
      rw [List.mem_singleton.mp hkey]
      decide }

/-- A word in letters, with marks between them, for the usual word; both close a branch too many. -/
theorem outcome_of_letters :
    let signs : Task := ⟨standard { reduction := 2 }, twig, "F[1F+]F]".toList⟩
    let letters : Task := ⟨({ config := { reduction := 2 } } : Interpretation).bindAll
        [('G', .draw), ('l', .turn 1), ('(', .push), (')', .pop)], twigOfLetters,
      "G(.cGl.).G)".toList⟩
    signs.interpretation.config.validate = .ok () ∧ signs.meanings = letters.meanings ∧
      signs.outcome.result = .error (.stackUnderflow 7) ∧
      letters.outcome.result = .error (.stackUnderflow 10) ∧
      signs.outcome.commands = letters.outcome.commands ∧
      letters.SameLog { letters with word := "G(cGl)G)".toList } := by
  intro signs letters
  have hvalid : signs.interpretation.config.validate = .ok () :=
    Config.validate_eq_ok_iff.mpr (by decide +kernel)
  have hmeanings : signs.meanings = letters.meanings := by decide +kernel
  have hsigns : signs.outcome.result = .error (.stackUnderflow 7) := by decide +kernel
  have hletters : letters.outcome.result = .error (.stackUnderflow 10) := by decide +kernel
  obtain ⟨hcourse, -⟩ := outcome_of_meanings (a := signs) (b := letters) hvalid (by decide +kernel) rfl
    hmeanings
  obtain ⟨-, hsilent⟩ := outcome_of_meanings (a := letters) (b := letters) (by decide +kernel) rfl rfl rfl
  exact ⟨hvalid, hmeanings, hsigns, hletters, hcourse.commands,
    (hsilent "G(cGl)G)".toList (by decide +kernel)).2⟩

end Task

end LSystem.Walk
