import LSystem.Grammar.Plants
import LSystem.Proofs.Grammar.Alphabet
import LSystem.Proofs.Grammar.Brackets
import LSystem.Proofs.Walk.Outcome
import LSystem.Proofs.Walk.Transcript

/-! Rendering of well bracketed grammars.

Under the usual meanings the branches of a walk are the brackets of its word. So an expansion of a
well bracketed grammar is a well nested word, and with strokes that never grow nothing stops its walk
but a depth limit below the bound on its brackets (`standard_renders`). -/
namespace LSystem.Walk.Interpretation

variable {config : Config} {grammar : Grammar}

/-! ### The usual meanings -/

theorem find?_standard (config : Config) (symbol : Symbol) : (standard config).ops.find? symbol =
    if ']' = symbol then some .pop
    else if '[' = symbol then some .push
    else if '-' = symbol then some (.turn (-1))
    else if '+' = symbol then some (.turn 1)
    else if 'F' = symbol then some .draw
    else none := by
  simp only [standard, bindStandard, bindAll, standardOps, List.foldl_cons, List.foldl_nil, bind,
    Table.find?_insert]
  rfl

theorem opFor_standard (config : Config) (grammar : Grammar) (symbol : Symbol) :
    (standard config).opFor grammar symbol =
      if ']' = symbol then .pop
      else if '[' = symbol then .push
      else if '-' = symbol then .turn (-1)
      else if '+' = symbol then .turn 1
      else if 'F' = symbol then .draw
      else if symbol.isDigit || (grammar.color? symbol).isSome then .setColor
      else .ignore := by
  rw [opFor, find?_standard]
  grind

theorem level_standard (config : Config) (grammar : Grammar) :
    (standard config).level grammar = bracket := by
  funext symbol
  rw [level, opFor_standard]
  by_cases hclose : ']' = symbol
  · rw [if_pos hclose, ← hclose]
    rfl
  by_cases hopen : '[' = symbol
  · rw [if_neg hclose, if_pos hopen, ← hopen]
    rfl
  · rw [if_neg hclose, if_neg hopen, bracket_of_ne (Ne.symm hopen) (Ne.symm hclose)]
    repeat' split
    all_goals rfl

theorem draws_standard (config : Config) (grammar : Grammar) (word : Word) :
    (standard config).draws grammar word = word.count 'F' := by
  apply List.countP_congr
  intro symbol _
  rw [opFor_standard, decide_eq_true_eq, beq_iff_eq]
  grind

/-- Only digits and keys of the color table take a color. -/
theorem setColor_standard {symbol : Symbol} (h : (standard config).opFor grammar symbol = .setColor) :
    symbol.isDigit = true ∨ (grammar.color? symbol).isSome = true := by
  rw [opFor_standard] at h
  rw [← Bool.or_eq_true]
  grind

/-! ### Words of balanced brackets -/

section Brackets
variable {word : Word} {last : State}

/-- A word of balanced brackets is read when the depth limit allows it and strokes do not grow. -/
theorem reads_standard (grammar : Grammar) (hvalid : config.validate = .ok ())
    (hreduction : Binary.le 1 config.reduction = true) (hbalanced : Word.Balanced bracket word)
    (hdeep : Word.nesting bracket word ≤ config.maxDepth) :
    ∃ last, Reads (standard config) grammar 0 (standard config).begin word last := by
  apply reads_of_clear
  apply clear_of_balanced
  · rw [level_standard]
    exact hbalanced
  · rw [level_standard]
    exact hdeep
  · intro index _
    exact Config.lengthAtDepth_isFinite hvalid hreduction _

theorem saved_eq_empty (h : Reads (standard config) grammar 0 (standard config).begin word last)
    (hbalanced : Word.Balanced bracket word) : last.saved = #[] := by
  have hdepth := h.counts.depth
  rw [level_standard, hbalanced.closed] at hdepth
  exact Array.eq_empty_of_size_eq_zero (Int.ofNat_eq_zero.mp hdepth)

end Brackets

/-! ### Expansions -/

/-- The walk along an expansion is complete, within the bound on its brackets, and closes every
branch; it warns of nothing if all digits have colors. -/
structure Renders (config : Config) (grammar : Grammar) (source : Source) : Prop where
  complete : ∃ summary, ((standard config).walkExpansion grammar source).2.result = .ok summary ∧
    summary.segments = (grammar.expand source).word.count 'F' ∧
    summary.maxDepth ≤ grammar.depthBound grammar.generations
  closed : ∀ branches, .unclosed branches ∉ ((standard config).walkExpansion grammar source).2.log
  silent : grammar.DigitsColored →
    ∀ record ∈ ((standard config).walkExpansion grammar source).2.log, record.isWarning = false

/-- The records of a complete walk along an expansion. -/
theorem mem_log_walkExpansion {source : Source} {last : State} (hvalid : config.validate = .ok ())
    (h : Reads (standard config) grammar 0 (standard config).begin (grammar.expand source).word last)
    (hclosed : last.saved = #[]) {record : LogRecord}
    (hmem : record ∈ ((standard config).walkExpansion grammar source).2.log) :
    (∃ number bytes, record = .generation number bytes) ∨
      record ∈ (standard config).unknownColors grammar 0 (grammar.expand source).word ∨
      record = .rendered last.segments last.maxDepth := by
  have hlog : ((standard config).walkExpansion grammar source).2.log =
      (grammar.expand source).log ++ closing last := by
    rw [walkExpansion, walk_of_reads hvalid h]
  rw [hlog, closing_of_closed h hclosed, Array.mem_append, Array.mem_push] at hmem
  rcases hmem with hexpand | hunknown | rfl
  · exact .inl (Grammar.stage_log source grammar.generations record hexpand)
  · exact .inr (.inl (List.mem_toArray.mp hunknown))
  · exact .inr (.inr rfl)

/-- No color is unknown in an expansion whose digits have colors. -/
theorem unknownColors_expand (hcolored : grammar.DigitsColored) (source : Source) :
    (standard config).unknownColors grammar 0 (grammar.expand source).word = [] := by
  apply unknownColors_eq_nil
  intro symbol hsymbol hcolor
  rw [← Option.isSome_iff_ne_none]
  refine (setColor_standard hcolor).elim (fun hdigit => ?_) id
  have halphabet := Grammar.stage_alphabet source grammar.generations symbol hsymbol
  exact Option.isSome_iff_exists.mpr (Table.mem_keys_iff.mp (hcolored symbol halphabet hdigit))

theorem renders (hgrammar : grammar.WellBracketed) (hvalid : config.validate = .ok ())
    (hreduction : Binary.le 1 config.reduction = true)
    (hdeep : grammar.depthBound grammar.generations ≤ config.maxDepth) (source : Source) :
    Renders config grammar source := by
  obtain ⟨hbalanced, hnesting⟩ := Grammar.stage_brackets hgrammar source grammar.generations
  rw [← Grammar.expand_eq_stage] at hbalanced hnesting
  obtain ⟨last, hread⟩ := reads_standard grammar hvalid hreduction hbalanced
    (Nat.le_trans hnesting hdeep)
  have hclosed := saved_eq_empty hread hbalanced
  have hcounts := hread.counts
  refine ⟨⟨⟨last.segments, last.maxDepth, last.turtle⟩, ?_, ?_, ?_⟩, ?_, ?_⟩
  · rw [walkExpansion, walk_of_reads hvalid hread]
  · exact hcounts.segments.trans (draws_standard config grammar _)
  · rw [hcounts.deepest, level_standard]
    exact hnesting
  · intro branches hmem
    rcases mem_log_walkExpansion hvalid hread hclosed hmem with ⟨_, _, heq⟩ | hunknown | heq
    · cases heq
    · cases isWarning_of_mem_unknownColors hunknown
    · cases heq
  · intro hcolored record hmem
    rcases mem_log_walkExpansion hvalid hread hclosed hmem with ⟨_, _, rfl⟩ | hunknown | rfl
    · rfl
    · rw [unknownColors_expand hcolored] at hunknown
      cases hunknown
    · rfl

/-- The plants are well bracketed, within the default depth limit, and have all their colors. -/
theorem grammar_plant (plant : Plant) : ∃ grammar, plant.grammar = .ok grammar ∧
    grammar.WellBracketed ∧ grammar.depthBound grammar.generations ≤ ({} : Config).maxDepth ∧
    grammar.DigitsColored := by
  obtain ⟨grammar, hgrammar, hkind⟩ :=
    (Definition.ofClauses plant.start.toList plant.clauses).exists_of_makesSome
      (fun grammar => decide (grammar.WellBracketed ∧
        grammar.depthBound grammar.generations ≤ ({} : Config).maxDepth ∧ grammar.DigitsColored))
      (by cases plant <;> decide +kernel)
  exact ⟨grammar, hgrammar, of_decide_eq_true hkind⟩

/-- **Well bracketed grammars render**, whatever the source, under every accepted configuration whose
strokes do not grow and whose depth limit is not below the bound on the brackets. All plants of the
catalogue do with the default limit. -/
theorem standard_renders :
    (∀ grammar : Grammar, grammar.WellBracketed → ∀ config : Config, config.validate = .ok () →
      Binary.le 1 config.reduction = true →
      grammar.depthBound grammar.generations ≤ config.maxDepth →
      ∀ source, Renders config grammar source) ∧
    (∀ plant : Plant, ∃ grammar, plant.grammar = .ok grammar ∧ grammar.DigitsColored ∧
      ∀ config : Config, config.validate = .ok () → Binary.le 1 config.reduction = true →
        config.maxDepth = ({} : Config).maxDepth → ∀ source, Renders config grammar source) := by
  refine ⟨fun grammar hgrammar config hvalid hreduction hdeep source =>
    renders hgrammar hvalid hreduction hdeep source, fun plant => ?_⟩
  obtain ⟨grammar, hplant, hgrammar, hbound, hcolored⟩ := grammar_plant plant
  refine ⟨grammar, hplant, hcolored, fun config hvalid hreduction hlimit source => ?_⟩
  exact renders hgrammar hvalid hreduction (hlimit ▸ hbound) source

end LSystem.Walk.Interpretation
