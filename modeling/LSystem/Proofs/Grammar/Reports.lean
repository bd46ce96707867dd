import LSystem.Proofs.Grammar.Alphabet

/-! What expansions report.

An expansion reports each of its generations once, in order, and gives a length with it. That length
counts the bytes of the word, not its symbols. The two agree for exactly the words of ASCII symbols
(`Word.byteLength_eq_length_iff`), so an expansion counts symbols as long as no other symbol comes up
after the start word, and in any case over an alphabet of ASCII symbols (`expand_reports`). One symbol
that takes two bytes is enough for a wrong count (`expand_overcounts`). -/
namespace LSystem

/-- Only symbols that are stored in one byte. -/
def Word.IsAscii (word : Word) : Prop := ∀ symbol ∈ word, symbol.val ≤ 127

/-- **Bytes count symbols exactly in words of ASCII symbols.** -/
theorem Word.byteLength_eq_length_iff {word : Word} :
    word.byteLength = word.length ↔ word.IsAscii := by
  induction word with
  | nil => exact ⟨fun _ => List.forall_mem_nil _, fun _ => rfl⟩
  | cons symbol rest ih =>
    have hrest := length_le_byteLength rest
    have hpos := symbol.utf8Size_pos
    have hsplit : symbol.utf8Size + byteLength rest = rest.length + 1 ↔
        symbol.utf8Size = 1 ∧ byteLength rest = rest.length := by omega
    rw [byteLength_cons, List.length_cons, hsplit, ih, Char.utf8Size_eq_one_iff, IsAscii, IsAscii,
      List.forall_mem_cons]

namespace Grammar

/-- An expansion reports every generation once, in order, with a measure of its word in the history. -/
structure Reports (grammar : Grammar) (measure : Word → Nat) (source : Source) : Prop where
  size : (grammar.expand source).log.size = grammar.generations
  record : ∀ n < grammar.generations, ∃ word, (grammar.history source).1[n + 1]? = some word ∧
    (grammar.expand source).log[n]? = some (.generation (n + 1) (measure word))

variable {grammar : Grammar} {source : Source}

theorem getElem?_log (source : Source) {n : Nat} (hn : n < grammar.generations) :
    (grammar.expand source).log[n]? =
      some (.generation (n + 1) (grammar.stage source (n + 1)).word.byteLength) := by
  rw [← Array.getElem?_toList, expand_eq_stage, log_stage, List.getElem?_map, List.getElem?_range hn]
  rfl

theorem size_log (source : Source) : (grammar.expand source).log.size = grammar.generations := by
  rw [← Array.length_toList, expand_eq_stage, log_stage, List.length_map, List.length_range]

/-- The reports are those of another measure if it is that of all words that are reported. -/
theorem reports_iff {measure : Word → Nat} : grammar.Reports measure source ↔
    ∀ n < grammar.generations, (grammar.stage source (n + 1)).word.byteLength =
      measure (grammar.stage source (n + 1)).word := by
  constructor
  · intro h n hn
    obtain ⟨word, hword, hrecord⟩ := h.record n hn
    rw [getElem?_history source hn] at hword
    rw [getElem?_log source hn, ← Option.some.inj hword] at hrecord
    exact (LogRecord.generation.inj (Option.some.inj hrecord)).2
  · intro h
    refine ⟨size_log source, fun n hn => ⟨_, getElem?_history source hn, ?_⟩⟩
    rw [getElem?_log source hn, h n hn]

/-- **An expansion reports the bytes of its generations.** These are their symbols exactly if all
words of the history behind the first are words of ASCII symbols. -/
theorem expand_reports (grammar : Grammar) (source : Source) :
    grammar.Reports Word.byteLength source ∧
    (grammar.Reports List.length source ↔
      ∀ word ∈ (grammar.history source).1.tail, word.IsAscii) ∧
    (Word.IsAscii grammar.alphabet → grammar.Reports List.length source) := by
  have hsymbols : grammar.Reports List.length source ↔
      ∀ n < grammar.generations, (grammar.stage source (n + 1)).word.IsAscii := by
    simp only [reports_iff, Word.byteLength_eq_length_iff]
  refine ⟨reports_iff.mpr fun _ _ => rfl, ?_, fun hascii => ?_⟩
  · rw [hsymbols, tail_history, List.forall_mem_map]
    simp only [List.mem_range]
  · exact hsymbols.mpr fun n _ symbol hsymbol =>
      hascii symbol (stage_alphabet source (n + 1) symbol hsymbol)

end Grammar

/-- A symbol of two bytes, written once, is reported as two symbols. -/
theorem expand_overcounts : ∃ grammar,
    (Definition.ofClauses "é".toList [.generations 1]).build = .ok grammar ∧
    (grammar.history (.cycle [0])).1 = ["é".toList, "é".toList] ∧
    (grammar.expand (.cycle [0])).log.map LogRecord.text = #["DEBUG generation 1: 2 symbols"] ∧
    ¬grammar.Reports List.length (.cycle [0]) := by
  obtain ⟨grammar, hbuild, hkind⟩ :=
    (Definition.ofClauses "é".toList [.generations 1]).exists_of_makesSome
      (fun grammar => decide (0 < grammar.generations ∧
        (grammar.history (.cycle [0])).1 = ["é".toList, "é".toList] ∧
        (grammar.expand (.cycle [0])).log = #[.generation 1 2])) (by decide +kernel)
  obtain ⟨hgenerations, hwords, hlog⟩ := of_decide_eq_true hkind
  refine ⟨grammar, hbuild, hwords, ?_, fun hreports => ?_⟩
  · rw [hlog]
    decide +kernel
  · obtain ⟨word, hword, hrecord⟩ := hreports.record 0 hgenerations
    rw [hwords] at hword
    cases hword
    rw [hlog] at hrecord
    revert hrecord
    decide

end LSystem
