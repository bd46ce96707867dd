import LSystem.Proofs.Grammar.Generations
import Mathlib.Order.Bounds.Basic

/-! The alphabet is closed under rewriting.

Every symbol that a start word or a production mentions is in the alphabet, so no stage of an
expansion has a symbol outside of it (`stage_alphabet`). It is collected from start word and rules
without a look at what they lead to, and yet has nothing to spare: it is the least set that has the
start word and the rewritten symbols and is closed under their alternatives (`alphabet_isLeast`). -/
namespace LSystem

namespace Table
variable {α : Type}

theorem mem_keys_insert {table : Table α} {key query : Symbol} {value : α} :
    query ∈ (table.insert key value).keys ↔ query = key ∨ query ∈ table.keys := by
  simp only [mem_keys_iff, find?_insert]
  by_cases h : key = query
  · rw [if_pos h]
    exact ⟨fun _ => .inl h.symm, fun _ => ⟨value, rfl⟩⟩
  · rw [if_neg h]
    exact ⟨.inr, fun hquery => hquery.resolve_left fun heq => h heq.symm⟩

/-- The keys of a table are those of the entries that it was made of. -/
theorem mem_keys_ofList {entries : List (Symbol × α)} {key : Symbol} :
    key ∈ (ofList entries).keys ↔ ∃ entry ∈ entries, entry.1 = key := by
  suffices ∀ table : Table α,
      key ∈ (entries.foldl (fun table entry => table.insert entry.1 entry.2) table).keys ↔
        key ∈ table.keys ∨ ∃ entry ∈ entries, entry.1 = key by
    have hempty : key ∉ (empty : Table α).keys := List.not_mem_nil
    rw [ofList, this]
    exact ⟨fun h => h.resolve_left hempty, .inr⟩
  induction entries with
  | nil => intro table; simp
  | cons first rest ih =>
    intro table
    rw [List.foldl_cons, ih, mem_keys_insert, or_assoc, or_left_comm, eq_comm (a := key)]
    simp only [List.mem_cons, exists_eq_or_imp]

end Table

namespace Grammar
variable {grammar : Grammar}

/-- Every digit that the grammar mentions has a color under it. -/
def DigitsColored (grammar : Grammar) : Prop :=
  ∀ symbol ∈ grammar.alphabet, symbol.isDigit = true → symbol ∈ grammar.colors.keys

-- The instance is named: another one in scope would run through all characters.
instance (grammar : Grammar) : Decidable grammar.DigitsColored := List.decidableBAll _ _

theorem mem_alphabet {symbol : Symbol} : symbol ∈ grammar.alphabet ↔
    symbol ∈ grammar.start ∨ ∃ entry ∈ grammar.productions.entries, symbol ∈ mentioned entry := by
  rw [alphabet, Table.mem_keys_ofList]
  simp only [List.mem_map, List.mem_append, List.mem_flatMap]
  constructor
  · rintro ⟨_, ⟨found, hfound, rfl⟩, rfl⟩
    exact hfound
  · intro h
    exact ⟨_, ⟨symbol, h, rfl⟩, rfl⟩

/-- The alternatives of a symbol of the alphabet are words over the alphabet. -/
theorem alternatives_alphabet {symbol : Symbol} {next : Word} (hsymbol : symbol ∈ grammar.alphabet)
    (h : next ∈ grammar.alternatives symbol) : ∀ found ∈ next, found ∈ grammar.alphabet := by
  rcases mem_alternatives h with ⟨-, rfl⟩ | ⟨choice, hchoice, item, hitem, rfl⟩
  · intro found hfound
    rwa [List.mem_singleton.mp hfound]
  · intro found hfound
    refine mem_alphabet.mpr (.inr ⟨_, Table.mem_of_find? hchoice, List.mem_cons_of_mem _ ?_⟩)
    exact List.mem_flatMap.mpr ⟨item, hitem, hfound⟩

/-- **No stage leaves the alphabet.** -/
theorem stage_alphabet (source : Source) (n : Nat) :
    ∀ symbol ∈ (grammar.stage source n).word, symbol ∈ grammar.alphabet :=
  stage_forall_mem (· ∈ grammar.alphabet) (fun _ h => mem_alphabet.mpr (.inl h))
    alternatives_alphabet source n

/-! ### The least closed set -/

variable (grammar) in
/-- A set has the start word and every symbol that is rewritten, and with a symbol all that its
alternatives have, those of weight zero included. -/
structure Covers (symbols : Set Symbol) : Prop where
  start : ∀ symbol ∈ grammar.start, symbol ∈ symbols
  rewritten : ∀ symbol choice, grammar.production? symbol = some choice → symbol ∈ symbols
  closed : ∀ symbol ∈ symbols, ∀ choice, grammar.production? symbol = some choice →
    ∀ item ∈ choice.items.toList, ∀ found ∈ item.2, found ∈ symbols

theorem covers_alphabet : grammar.Covers {symbol | symbol ∈ grammar.alphabet} where
  start _ hsymbol := mem_alphabet.mpr (.inl hsymbol)
  rewritten _ _ hchoice :=
    mem_alphabet.mpr (.inr ⟨_, Table.mem_of_find? hchoice, List.mem_cons_self ..⟩)
  closed symbol hsymbol choice hchoice item hitem := by
    have hnext : item.2 ∈ grammar.alternatives symbol := by
      rw [alternatives, hchoice]
      exact List.mem_map.mpr ⟨item, hitem, rfl⟩
    exact alternatives_alphabet hsymbol hnext

/-- What covers a grammar has its alphabet. -/
theorem Covers.mem_of_alphabet {symbols : Set Symbol} (h : grammar.Covers symbols) {symbol : Symbol}
    (hsymbol : symbol ∈ grammar.alphabet) : symbol ∈ symbols := by
  rcases mem_alphabet.mp hsymbol with hstart | ⟨entry, hentry, hmentioned⟩
  · exact h.start symbol hstart
  · have hchoice : grammar.production? entry.1 = some entry.2 := Table.find?_of_mem hentry
    have hkey : entry.1 ∈ symbols := h.rewritten _ _ hchoice
    rcases List.mem_cons.mp hmentioned with rfl | hfound
    · exact hkey
    · obtain ⟨item, hitem, hfound⟩ := List.mem_flatMap.mp hfound
      exact h.closed _ hkey _ hchoice item hitem symbol hfound

variable (grammar) in
/-- A grammar has a symbol, in its start word or by a rule. -/
theorem alphabet_ne_nil : grammar.alphabet ≠ [] := by
  rcases grammar.inhabited with hstart | hrules
  · obtain ⟨symbol, hsymbol⟩ := List.exists_mem_of_ne_nil _ hstart
    exact List.ne_nil_of_mem (covers_alphabet.start symbol hsymbol)
  · obtain ⟨entry, hentry⟩ := List.exists_mem_of_ne_nil _ hrules
    exact List.ne_nil_of_mem (covers_alphabet.rewritten _ _ (Table.find?_of_mem hentry))

/-- **The alphabet is what a grammar can write, and no more.** The words of a history and the word of
an expansion are words over it, and so is whatever a word over it is rewritten to, from any source.
It is the least set that covers the grammar, lists each of its symbols once and in rising order, and
is never empty. -/
theorem alphabet_isLeast (grammar : Grammar) :
    (∀ source, ∀ word ∈ (grammar.history source).1, ∀ symbol ∈ word, symbol ∈ grammar.alphabet) ∧
    (∀ source, ∀ symbol ∈ (grammar.expand source).word, symbol ∈ grammar.alphabet) ∧
    (∀ word source, (∀ symbol ∈ word, symbol ∈ grammar.alphabet) →
      ∀ symbol ∈ (grammar.rewrite word source).1, symbol ∈ grammar.alphabet) ∧
    IsLeast {symbols | grammar.Covers symbols} {symbol | symbol ∈ grammar.alphabet} ∧
    grammar.alphabet.Pairwise (· < ·) ∧ grammar.alphabet ≠ [] := by
  refine ⟨fun source word hword => ?_, fun source => stage_alphabet source _,
    fun word source hword => ?_, ⟨covers_alphabet, fun symbols hsymbols symbol => ?_⟩, ?_,
    grammar.alphabet_ne_nil⟩
  · rw [history_eq, List.mem_map] at hword
    obtain ⟨n, -, rfl⟩ := hword
    exact stage_alphabet source n
  · exact (grammar.rewrites_rewrite word source).forall_mem _ alternatives_alphabet hword
  · exact hsymbols.mem_of_alphabet
  · exact List.pairwise_map.mpr (Table.sorted _)

end Grammar

/-- Brackets, turns and colors are symbols like any other. -/
example : (Definition.ofClauses "SX".toList [.always 'X' "1[+F]".toList]).makesSome
    (fun grammar => grammar.alphabet = "+1FSX[]".toList) = true := by decide +kernel

end LSystem
