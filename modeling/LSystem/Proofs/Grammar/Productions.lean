import LSystem.Grammar.Definition

/-! Where grammars come from.

A definition makes the one grammar that says what it says (`build_eq_ok_iff`). The table of its
productions is filled rule by rule, so everything it holds is the choice that one of the rules makes
(`exists_rule_of_build`), and what is known of every accepted choice is known of every production. -/
namespace LSystem

namespace Definition
variable {definition : Definition} {grammar : Grammar}
  {rules : List (Symbol × List (Single × Word))} {table productions : Table (WeightedChoice Word)}

/-! ### Tables of productions -/

/-- What a table of productions holds was there before or is the choice that a rule makes. -/
theorem find?_productionsFrom (h : productionsFrom table rules = .ok productions) {symbol : Symbol}
    {choice : WeightedChoice Word} (hfound : productions.find? symbol = some choice) :
    table.find? symbol = some choice ∨
      ∃ rule ∈ rules, rule.1 = symbol ∧ WeightedChoice.ofItems rule.2 = .ok choice := by
  induction rules generalizing table with
  | nil =>
    cases h
    exact .inl hfound
  | cons rule rest ih =>
    simp only [productionsFrom] at h
    split at h
    · rename_i made hmade
      rcases ih h with hearlier | ⟨later, hlater, hrule⟩
      · rw [Table.find?_insert] at hearlier
        split at hearlier
        · rename_i hsymbol
          cases hearlier
          exact .inr ⟨rule, List.mem_cons_self, hsymbol, hmade⟩
        · exact .inl hearlier
      · exact .inr ⟨later, List.mem_cons_of_mem _ hlater, hrule⟩
    · cases h

/-- Filling a table takes nothing out of it. -/
theorem find?_productionsFrom_ne_none (h : productionsFrom table rules = .ok productions)
    {symbol : Symbol} (hfound : table.find? symbol ≠ none) : productions.find? symbol ≠ none := by
  induction rules generalizing table with
  | nil =>
    cases h
    exact hfound
  | cons rule rest ih =>
    simp only [productionsFrom] at h
    split at h
    · refine ih h ?_
      rw [Table.find?_insert]
      split
      · exact Option.some_ne_none _
      · exact hfound
    · cases h

/-- Every rule of a filled table makes a choice, and its symbol has a production. -/
theorem rule_of_productionsFrom (h : productionsFrom table rules = .ok productions)
    {rule : Symbol × List (Single × Word)} (hrule : rule ∈ rules) :
    (∃ choice, WeightedChoice.ofItems rule.2 = .ok choice) ∧ productions.find? rule.1 ≠ none := by
  induction rules generalizing table with
  | nil => cases hrule
  | cons first rest ih =>
    simp only [productionsFrom] at h
    split at h
    · rename_i choice hchoice
      rcases List.mem_cons.mp hrule with rfl | hmem
      · refine ⟨⟨choice, hchoice⟩, find?_productionsFrom_ne_none h ?_⟩
        rw [Table.find?_insert, if_pos rfl]
        exact Option.some_ne_none _
      · exact ih h hmem
    · cases h

/-- **A table cannot be filled for the first rule that makes no choice.** -/
theorem productionsFrom_eq_error {error : DefinitionError}
    (h : productionsFrom table rules = .error error) :
    ∃ front rule back fault, rules = front ++ rule :: back ∧
      (∀ earlier ∈ front, ∃ choice, WeightedChoice.ofItems earlier.2 = .ok choice) ∧
      WeightedChoice.ofItems rule.2 = .error fault ∧ error = .ofChoice rule.1 fault := by
  induction rules generalizing table with
  | nil => cases h
  | cons first rest ih =>
    simp only [productionsFrom] at h
    split at h
    · rename_i choice hchoice
      obtain ⟨front, rule, back, fault, rfl, hfront, hrule, herror⟩ := ih h
      refine ⟨first :: front, rule, back, fault, rfl, ?_, hrule, herror⟩
      rw [List.forall_mem_cons]
      exact ⟨⟨choice, hchoice⟩, hfront⟩
    · rename_i fault hfault
      cases h
      exact ⟨[], first, rest, fault, rfl, List.forall_mem_nil _, hfault, rfl⟩

/-! ### Accepted definitions -/

/-- The grammar says what the definition says. -/
structure Makes (definition : Definition) (grammar : Grammar) : Prop where
  start : grammar.start = definition.start
  angle : grammar.angle = definition.angle
  generations : grammar.generations = definition.generations
  colors : grammar.colors = definition.colors
  productions : productionsFrom .empty definition.rules = .ok grammar.productions

/-- **A definition is accepted if there is a grammar that says the same**, and makes that grammar:
what is checked besides the rules are the conditions that every grammar meets. -/
theorem build_eq_ok_iff : definition.build = .ok grammar ↔ definition.Makes grammar := by
  constructor
  · intro h
    unfold build at h
    split at h
    · split at h
      · cases h
      · split at h
        · cases h
        · split at h
          · cases h
          · rename_i productions hproductions
            cases h
            exact ⟨rfl, rfl, rfl, rfl, hproductions⟩
    · cases h
  · obtain ⟨start, angle, generations, productions, colors, hangle, hinhabited, hcolors⟩ := grammar
    rintro ⟨rfl, rfl, rfl, rfl, hproductions⟩
    have hkeys : definition.colors.keys.find? (structuralSymbols.contains ·) = none := by
      apply List.find?_eq_none.mpr
      simpa using hcolors
    have hempty : ¬(definition.start = [] ∧ definition.rules = []) := by
      rintro ⟨hstart, hrules⟩
      rw [hrules] at hproductions
      cases hproductions
      exact hinhabited.elim (· hstart) (· rfl)
    unfold build
    rw [dif_pos hangle, dif_neg hempty]
    split
    · rename_i key hkey
      rw [hkeys] at hkey
      cases hkey
    · split
      · rename_i fault hfault
        rw [hproductions] at hfault
        cases hfault
      · rename_i found hfound
        cases hproductions.symm.trans hfound
        rfl

/-- A production is the choice that a rule makes. -/
theorem exists_rule_of_build (h : definition.build = .ok grammar) {symbol : Symbol}
    {choice : WeightedChoice Word} (hchoice : grammar.production? symbol = some choice) :
    ∃ rule ∈ definition.rules, rule.1 = symbol ∧ WeightedChoice.ofItems rule.2 = .ok choice := by
  have hmakes := build_eq_ok_iff.mp h
  refine (find?_productionsFrom hmakes.productions hchoice).resolve_left fun hempty => ?_
  rw [Table.find?_empty] at hempty
  cases hempty

/-- Whether the definition makes a grammar of some kind. -/
def makesSome (definition : Definition) (kind : Grammar → Bool) : Bool :=
  match definition.build with
  | .ok grammar => kind grammar
  | .error _ => false

theorem exists_of_makesSome (kind : Grammar → Bool) (h : definition.makesSome kind = true) :
    ∃ grammar, definition.build = .ok grammar ∧ kind grammar = true := by
  unfold makesSome at h
  split at h
  · rename_i grammar hgrammar
    exact ⟨grammar, hgrammar, h⟩
  · cases h

end Definition

end LSystem
