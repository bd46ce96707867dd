import LSystem.Proofs.Walk.Canvases
import LSystem.Proofs.Walk.Scope

/-! What walks report.

A walk reports every color symbol without its color, where it reads it, and nothing else until it
comes to its end (`Reads.log`). So it warns of what the word holds up to where the walk reaches
(`warnings`), whatever the turtle does meanwhile, and the records of a complete walk are these and
then its counts (`walk_log`). -/
namespace LSystem.Walk.Interpretation

variable (interpretation : Interpretation) (grammar : Grammar)

/-- The color symbols without a color in a word that is read from an index on. -/
def unknownColors (index : Nat) : Word → List LogRecord
  | [] => []
  | symbol :: rest =>
    reported grammar symbol index (interpretation.opFor grammar symbol) ++
      unknownColors (index + 1) rest

variable {interpretation grammar}

theorem Reads.log {index : Nat} {state last : State} {word : Word}
    (h : Reads interpretation grammar index state word last) :
    last.log = state.log ++ (interpretation.unknownColors grammar index word).toArray := by
  induction h with
  | nil => exact Array.append_empty.symm
  | @cons index state symbol rest last _ _ ih =>
    rw [ih, step, log_obey, Array.append_assoc]
    exact congrArg (state.log ++ ·) (List.append_toArray _ _)

theorem isWarning_of_mem_unknownColors {index : Nat} {word : Word} {record : LogRecord}
    (h : record ∈ interpretation.unknownColors grammar index word) : record.isWarning = true := by
  induction word generalizing index with
  | nil => cases h
  | cons symbol rest ih =>
    rcases List.mem_append.mp h with hfirst | hrest
    · unfold reported at hfirst
      split at hfirst
      · rw [List.mem_singleton.mp hfirst]
        rfl
      · cases hfirst
    · exact ih hrest

/-- A word whose color symbols all have their colors is read without a report. -/
theorem unknownColors_eq_nil {word : Word} {index : Nat}
    (h : ∀ symbol ∈ word, interpretation.opFor grammar symbol = .setColor →
      grammar.color? symbol ≠ none) :
    interpretation.unknownColors grammar index word = [] := by
  induction word generalizing index with
  | nil => rfl
  | cons symbol rest ih =>
    rw [List.forall_mem_cons] at h
    have hnothing : reported grammar symbol index (interpretation.opFor grammar symbol) = [] :=
      if_neg fun hunknown => h.1 hunknown.1 hunknown.2
    rw [unknownColors, hnothing, ih h.2]
    rfl

/-! ### Warnings by their indices -/

variable (interpretation grammar) in
/-- A color symbol without a color. -/
def Unknown (symbol : Symbol) : Prop :=
  interpretation.opFor grammar symbol = .setColor ∧ grammar.color? symbol = none

instance (symbol : Symbol) : Decidable (interpretation.Unknown grammar symbol) :=
  inferInstanceAs (Decidable (_ ∧ _))

variable (interpretation grammar) in
/-- The warning that the symbol at an index gives cause for. -/
def warningAt (word : Word) (index : Nat) : Option LogRecord :=
  word[index]?.bind fun symbol =>
    if interpretation.Unknown grammar symbol then some (.unknownColor symbol index) else none

variable (interpretation grammar) in
/-- The warnings that the symbols before a limit give cause for, by rising index. -/
def warnings (word : Word) (limit : Nat) : List LogRecord :=
  (List.range limit).filterMap (interpretation.warningAt grammar word)

theorem warnings_succ (word : Word) (limit : Nat) :
    interpretation.warnings grammar word (limit + 1) =
      interpretation.warnings grammar word limit ++
        (interpretation.warningAt grammar word limit).toList := by
  rw [warnings, List.range_succ, List.filterMap_append, warnings]
  cases h : interpretation.warningAt grammar word limit <;> simp [h]

theorem toList_warningAt (u v : Word) (symbol : Symbol) :
    (interpretation.warningAt grammar (u ++ symbol :: v) u.length).toList =
      reported grammar symbol u.length (interpretation.opFor grammar symbol) := by
  have hsymbol : (u ++ symbol :: v)[u.length]? = some symbol := by simp
  rw [warningAt, hsymbol, Option.bind_some, reported]
  by_cases h : interpretation.Unknown grammar symbol
  · rw [if_pos h]
    exact (if_pos h).symm
  · rw [if_neg h]
    exact (if_neg h).symm

theorem unknownColors_append (index : Nat) (u v : Word) :
    interpretation.unknownColors grammar index (u ++ v) =
      interpretation.unknownColors grammar index u ++
        interpretation.unknownColors grammar (index + u.length) v := by
  induction u generalizing index with
  | nil => rfl
  | cons symbol rest ih =>
    rw [List.cons_append, unknownColors, unknownColors, ih, List.append_assoc, List.length_cons,
      Nat.add_right_comm, Nat.add_assoc]

/-- What a part of a word gives cause for does not depend on what follows. -/
theorem warnings_append (u v : Word) : interpretation.warnings grammar (u ++ v) u.length =
    interpretation.unknownColors grammar 0 u := by
  induction u using List.reverseRecOn generalizing v with
  | nil => rfl
  | append_singleton u symbol ih =>
    rw [List.length_append, List.length_singleton, warnings_succ, List.append_assoc,
      List.singleton_append, ih, toList_warningAt, unknownColors_append, Nat.zero_add]
    exact congrArg _ (List.append_nil _).symm

/-- Warnings are about which symbols are unknown and about nothing else. -/
theorem warnings_congr {other : Interpretation} {another : Grammar} {word : Word}
    (h : ∀ symbol ∈ word, other.Unknown another symbol ↔ interpretation.Unknown grammar symbol)
    (limit : Nat) :
    other.warnings another word limit = interpretation.warnings grammar word limit := by
  refine List.filterMap_congr fun index _ => ?_
  unfold warningAt
  cases hsymbol : word[index]? with
  | none => rfl
  | some symbol => exact if_congr (h symbol (List.mem_of_getElem? hsymbol)) rfl rfl

theorem level_of_mem_warnings {word : Word} {limit : Nat} {record : LogRecord}
    (h : record ∈ interpretation.warnings grammar word limit) : record.level = "WARN" := by
  obtain ⟨index, -, hrecord⟩ := List.mem_filterMap.mp h
  obtain ⟨symbol, -, hwarning⟩ := Option.bind_eq_some_iff.mp hrecord
  split at hwarning
  · cases hwarning
    rfl
  · cases hwarning

/-! ### The end of a walk -/

variable (interpretation grammar) in
/-- The records at the end of a walk along a word: none if it was stopped, and otherwise the branches
that the word has opened and not closed, if there are any, and the counts of the summary. -/
def closingRecords (word : Word) : Except WalkError Summary → List LogRecord
  | .error _ => []
  | .ok summary =>
    let branches := Word.depth (interpretation.level grammar) word
    (if 0 < branches then [.unclosed branches.toNat] else []) ++
      [.rendered summary.segments summary.maxDepth]

theorem level_of_mem_closingRecords {word : Word} {result : Except WalkError Summary}
    {record : LogRecord} (h : record ∈ interpretation.closingRecords grammar word result) :
    record.level = "DEBUG" := by
  cases result with
  | error fault => cases h
  | ok summary =>
    rcases List.mem_append.mp h with hunclosed | hrendered
    · split at hunclosed
      · rw [List.mem_singleton.mp hunclosed]
        rfl
      · cases hunclosed
    · rw [List.mem_singleton.mp hrendered]
      rfl

/-- The records of a complete walk. -/
theorem Reads.closing {word : Word} {last : State}
    (h : Reads interpretation grammar 0 interpretation.begin word last) :
    (closing last).toList = last.log.toList ++ interpretation.closingRecords grammar word
      (.ok ⟨last.segments, last.maxDepth, last.turtle⟩) := by
  rw [Interpretation.closing, closingRecords, ← h.counts.depth, Int.toNat_natCast]
  cases hsize : last.saved.size <;> simp [Array.isEmpty, hsize]

/-- A complete walk that has closed all branches reports its counts, behind the unknown colors. -/
theorem closing_of_closed {word : Word} {last : State}
    (h : Reads interpretation grammar 0 interpretation.begin word last) (hclosed : last.saved = #[]) :
    closing last = (interpretation.unknownColors grammar 0 word).toArray.push
      (.rendered last.segments last.maxDepth) := by
  have hlog := h.log
  have hbegin : interpretation.begin.log = #[] := rfl
  rw [hbegin, Array.empty_append] at hlog
  rw [closing, hclosed, hlog]
  rfl

/-- Up to its end, a walk has reported the warnings up to where it reaches. -/
theorem log_walkFrom (hvalid : interpretation.config.validate = .ok ()) (word : Word) :
    (interpretation.walkFrom grammar 0 interpretation.begin word).1.log.toList =
      interpretation.warnings grammar word ((interpretation.walk grammar word).reach word) := by
  have hlog {read : Word} {last : State} (rest : Word)
      (h : Reads interpretation grammar 0 interpretation.begin read last) :
      last.log.toList = interpretation.warnings grammar (read ++ rest) read.length := by
    rw [warnings_append, h.log]
    exact congrArg Array.toList (Array.empty_append ..)
  rcases reads_or_stops interpretation grammar word with
    ⟨last, hread⟩ | ⟨read, symbol, rest, mid, fault, rfl, hread, hstop⟩
  · rw [walkFrom_eq_none_iff.mpr hread, walk_of_reads hvalid hread]
    have := hlog [] hread
    rwa [List.append_nil] at this
  · rw [reach_of_stops hvalid hread hstop, walkFrom_eq_some_iff.mpr
      ⟨read, symbol, rest, rfl, hread, by rw [Nat.zero_add]; exact hstop⟩]
    exact hlog _ hread

/-- The records of a walk are its warnings and then those at its end. -/
theorem toList_log (interpretation : Interpretation) (grammar : Grammar) (word : Word) :
    (interpretation.walk grammar word).log.toList =
      interpretation.warnings grammar word ((interpretation.walk grammar word).reach word) ++
        interpretation.closingRecords grammar word (interpretation.walk grammar word).result := by
  cases hvalid : interpretation.config.validate with
  | error fault =>
    rw [reach_of_invalid hvalid, walk_of_invalid hvalid]
    rfl
  | ok =>
    rw [← log_walkFrom hvalid]
    cases hwalk : interpretation.walkFrom grammar 0 interpretation.begin word with
    | mk last stop =>
      cases stop with
      | some fault =>
        rw [walk_of_fault hvalid hwalk]
        exact (List.append_nil _).symm
      | none =>
        have hread := walkFrom_eq_none_iff.mp hwalk
        rw [walk_of_reads hvalid hread]
        exact hread.closing

/-- No record at the end of a walk is a warning. -/
theorem filter_log (interpretation : Interpretation) (grammar : Grammar) (word : Word) :
    (interpretation.walk grammar word).log.toList.filter (fun record => record.level = "WARN") =
      interpretation.warnings grammar word ((interpretation.walk grammar word).reach word) := by
  rw [toList_log, List.filter_append, List.filter_eq_self.mpr, List.filter_eq_nil_iff.mpr,
    List.append_nil]
  · intro record hrecord
    rw [level_of_mem_closingRecords hrecord]
    decide
  · intro record hrecord
    rw [level_of_mem_warnings hrecord]
    decide

/-- **The records of a walk are its warnings and its end.** A walk warns of every color symbol without
a color that it reaches, by rising index. If it is complete, it then reports the branches left open,
if there are any, and last the counts of its summary; a refused configuration leaves no record. The
warnings stay the same with any other bindings, colors and configuration to which the same symbols are
unknown, as long as the walk reaches as far, and behind any commands. -/
theorem walk_log (interpretation : Interpretation) (grammar : Grammar) (word : Word) :
    let outcome := interpretation.walk grammar word
    let warnings := interpretation.warnings grammar word (outcome.reach word)
    let closing := interpretation.closingRecords grammar word outcome.result
    outcome.log.toList = warnings ++ closing ∧
    (∀ record ∈ warnings, record.level = "WARN") ∧ (∀ record ∈ closing, record.level = "DEBUG") ∧
    (∀ fault, interpretation.config.validate = .error fault → outcome.log = #[]) ∧
    (∀ (other : Interpretation) (another : Grammar),
      (∀ symbol ∈ word, other.Unknown another symbol ↔ interpretation.Unknown grammar symbol) →
      (other.walk another word).reach word = outcome.reach word →
      (other.walk another word).log.toList.filter (fun record => record.level = "WARN") = warnings) ∧
    (interpretation.config.validate = .ok () → ∀ before,
      (interpretation.walkFrom grammar 0 (interpretation.begin.behind before) word).1.log.toList =
        warnings) := by
  intro outcome warnings closing
  refine ⟨toList_log interpretation grammar word, fun _ => level_of_mem_warnings,
    fun _ => level_of_mem_closingRecords, fun fault hfault => ?_, fun other another hsame hreach => ?_,
    fun hvalid before => ?_⟩
  · rw [show outcome = _ from walk_of_invalid hfault word]
  · rw [filter_log, hreach]
    exact warnings_congr hsame _
  · rw [walkFrom_behind]
    exact log_walkFrom hvalid word

/-- An unknown color is reported where it stands, an open branch at the end. -/
example : ((standard {}).walk twig "F9[F".toList).log.map LogRecord.text =
    #["WARN no color bound to `9` at index 1; keeping current color",
      "DEBUG walk ended with 1 unclosed branches",
      "DEBUG rendered 2 segments, max depth 1"] := by decide +kernel

end LSystem.Walk.Interpretation
