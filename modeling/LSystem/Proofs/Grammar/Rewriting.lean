import LSystem.Grammar.Expansion

/-! What rewriting can do, whatever is drawn.

A source decides which successor a symbol gets, but never lets it get anything other than one of its
`alternatives`. `Rewrites` is rewriting with that choice left open, so what holds along every
`Rewrites` holds for every source, and what it keeps from word to word holds at every stage of every
expansion (`stage_invariant`). -/
namespace LSystem

/-- What is chosen is one of the items. -/
theorem WeightedChoice.choose_mem {α : Type} (choice : WeightedChoice α) (source : Source) :
    ∃ item ∈ choice.items.toList, item.2 = (choice.choose source).1 := by
  have hpick (word : UInt32) : ∃ item ∈ choice.items.toList, item.2 = choice.pick word :=
    ⟨_, Array.getElem_mem_toList (choice.place_lt word), rfl⟩
  unfold choose
  split
  · exact hpick 0
  · exact hpick source.next.1

namespace Table
variable {α : Type} {table : Table α} {key : Symbol}

/-- What is found under a key is an entry. -/
theorem mem_of_find? {value : α} (h : table.find? key = some value) :
    (key, value) ∈ table.entries := by
  obtain ⟨found, hfound, rfl⟩ := Option.map_eq_some_iff.mp h
  have hmem := List.mem_of_find?_eq_some hfound
  have hkey := List.find?_some hfound
  rw [decide_eq_true_eq] at hkey
  rwa [← hkey]

/-- Every entry is found under its key. -/
theorem find?_of_mem {entry : Symbol × α} (h : entry ∈ table.entries) :
    table.find? entry.1 = some entry.2 := by
  obtain ⟨entries, hsorted⟩ := table
  simp only [find?]
  induction entries with
  | nil => cases h
  | cons first rest ih =>
    obtain ⟨hfirst, hrest⟩ := List.pairwise_cons.mp hsorted
    rcases List.mem_cons.mp h with rfl | hmem
    · rw [List.find?_cons_of_pos (by rw [decide_eq_true_eq])]
      rfl
    · have hne : first.1 ≠ entry.1 := fun heq => Char.lt_irrefl _ (heq ▸ hfirst entry hmem)
      rw [List.find?_cons_of_neg (by rwa [decide_eq_true_eq])]
      exact ih hrest hmem

/-- The keys are those under which something is found. -/
theorem mem_keys_iff : key ∈ table.keys ↔ ∃ value, table.find? key = some value := by
  constructor
  · intro h
    obtain ⟨entry, hentry, rfl⟩ := List.mem_map.mp h
    have hsome : (table.entries.find? fun other => other.1 = entry.1).isSome :=
      List.find?_isSome.mpr ⟨entry, hentry, by rw [decide_eq_true_eq]⟩
    obtain ⟨found, hfound⟩ := Option.isSome_iff_exists.mp hsome
    exact ⟨found.2, Option.map_eq_some_iff.mpr ⟨found, hfound, rfl⟩⟩
  · rintro ⟨value, hvalue⟩
    exact List.mem_map.mpr ⟨_, mem_of_find? hvalue, rfl⟩

end Table

namespace Grammar
variable (grammar : Grammar)

/-- The words that a symbol can become. -/
def alternatives (symbol : Symbol) : List Word :=
  match grammar.production? symbol with
  | some choice => choice.items.toList.map (·.2)
  | none => [[symbol]]

/-- Every symbol of the first word becomes one of its alternatives in the second. -/
inductive Rewrites : Word → Word → Prop where
  | nil : Rewrites [] []
  | cons {symbol : Symbol} {next rest tail : Word} (hnext : next ∈ grammar.alternatives symbol)
      (hrest : Rewrites rest tail) : Rewrites (symbol :: rest) (next ++ tail)

theorem successor_mem (symbol : Symbol) (source : Source) :
    (grammar.successor symbol source).1 ∈ grammar.alternatives symbol := by
  unfold successor alternatives
  cases grammar.production? symbol with
  | none => exact List.mem_singleton.mpr rfl
  | some choice =>
    obtain ⟨item, hitem, hchosen⟩ := choice.choose_mem source
    exact List.mem_map.mpr ⟨item, hitem, hchosen⟩

/-- Rewriting takes alternatives, whatever the source. -/
theorem rewrites_rewrite (word : Word) (source : Source) :
    grammar.Rewrites word (grammar.rewrite word source).1 := by
  induction word generalizing source with
  | nil => exact .nil
  | cons symbol rest ih =>
    rw [rewrite_cons]
    exact .cons (grammar.successor_mem symbol source) (ih _)

variable {grammar}

/-- A symbol is kept or becomes an item of its production. -/
theorem mem_alternatives {symbol : Symbol} {next : Word} (h : next ∈ grammar.alternatives symbol) :
    (grammar.production? symbol = none ∧ next = [symbol]) ∨
      ∃ choice, grammar.production? symbol = some choice ∧
        ∃ item ∈ choice.items.toList, item.2 = next := by
  unfold alternatives at h
  cases hproduction : grammar.production? symbol with
  | none =>
    rw [hproduction] at h
    exact .inl ⟨rfl, List.mem_singleton.mp h⟩
  | some choice =>
    rw [hproduction] at h
    exact .inr ⟨choice, rfl, List.mem_map.mp h⟩

/-- What the symbols of a word have and alternatives keep, all symbols of what it becomes have. -/
theorem Rewrites.forall_mem {u v : Word} (h : grammar.Rewrites u v) (P : Symbol → Prop)
    (hclosed : ∀ {symbol next}, P symbol → next ∈ grammar.alternatives symbol → ∀ found ∈ next, P found)
    (hu : ∀ symbol ∈ u, P symbol) : ∀ symbol ∈ v, P symbol := by
  induction h with
  | nil => exact hu
  | cons hnext _ ih =>
    rw [List.forall_mem_cons] at hu
    rw [List.forall_mem_append]
    exact ⟨hclosed hu.1 hnext, ih hu.2⟩

/-! ### Stages -/

variable (grammar) in
/-- The stage after so many generations. -/
def stage (source : Source) (generations : Nat) : Stage :=
  Nat.repeat grammar.advance generations (grammar.begin source)

theorem expand_eq_stage (source : Source) :
    grammar.expand source = grammar.stage source grammar.generations := rfl

/-- **What the start word has and rewriting keeps, every stage has.** -/
theorem stage_invariant (Inv : Nat → Word → Prop) (hstart : Inv 0 grammar.start)
    (hstep : ∀ {n u v}, Inv n u → grammar.Rewrites u v → Inv (n + 1) v) (source : Source) (n : Nat) :
    Inv n (grammar.stage source n).word := by
  induction n with
  | zero => exact hstart
  | succ n ih => exact hstep ih (grammar.rewrites_rewrite _ _)

/-- What the symbols of the start word have and alternatives keep, all symbols of every stage have. -/
theorem stage_forall_mem (P : Symbol → Prop) (hstart : ∀ symbol ∈ grammar.start, P symbol)
    (hclosed : ∀ {symbol next}, P symbol → next ∈ grammar.alternatives symbol → ∀ found ∈ next, P found)
    (source : Source) (n : Nat) : ∀ symbol ∈ (grammar.stage source n).word, P symbol :=
  stage_invariant (fun _ word => ∀ symbol ∈ word, P symbol) hstart
    (fun hu huv => huv.forall_mem P hclosed hu) source n

theorem generation_stage (source : Source) (n : Nat) : (grammar.stage source n).generation = n := by
  induction n with
  | zero => rfl
  | succ n ih => exact congrArg (· + 1) ih

/-- Each generation is reported once, in order, with the bytes of its word. -/
theorem log_stage (source : Source) (n : Nat) : (grammar.stage source n).log.toList =
    (List.range n).map fun k =>
      .generation (k + 1) (grammar.stage source (k + 1)).word.byteLength := by
  induction n with
  | zero => rfl
  | succ n ih =>
    have hstep : (grammar.stage source (n + 1)).log = (grammar.stage source n).log.push
        (.generation ((grammar.stage source n).generation + 1)
          (grammar.stage source (n + 1)).word.byteLength) := rfl
    rw [hstep, generation_stage, Array.toList_push, ih, List.range_succ, List.map_append,
      List.map_singleton]

/-- An expansion only reports its generations. -/
theorem stage_log (source : Source) (n : Nat) :
    ∀ record ∈ (grammar.stage source n).log, ∃ number bytes, record = .generation number bytes := by
  intro record hmem
  rw [← Array.mem_toList_iff, log_stage, List.mem_map] at hmem
  obtain ⟨k, -, rfl⟩ := hmem
  exact ⟨_, _, rfl⟩

end Grammar

end LSystem
