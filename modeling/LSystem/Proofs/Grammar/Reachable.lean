import LSystem.Proofs.Choice.Intervals
import LSystem.Proofs.Grammar.Generations

/-! Rules that cannot be reached.

From the start word only some symbols can ever come up: its own, and those of the successors of
symbols that can (`Grammar.Reachable`). No stage of an expansion has any other one (`stage_reachable`),
and rewriting asks for nothing but the productions of the symbols it meets. So grammars that start
alike and agree on the productions of these symbols go through the same stages with the same draws,
whatever else they say (`expand_unreachable`). It does not matter in which of them the symbols are
reached (`reachable_congr`). -/
namespace LSystem

namespace Grammar

/-- The symbols that can come up in an expansion. -/
inductive Reachable (grammar : Grammar) : Symbol → Prop where
  /-- Those of the start word. -/
  | start {symbol : Symbol} : symbol ∈ grammar.start → Reachable grammar symbol
  /-- Those of every successor of a symbol that can come up, whatever its weight. -/
  | successor {symbol found : Symbol} {choice : WeightedChoice Word} {item : Single × Word} :
      Reachable grammar symbol → grammar.production? symbol = some choice →
      item ∈ choice.items.toList → found ∈ item.2 → Reachable grammar found

variable {g h : Grammar}

/-! ### What can come up -/

theorem Reachable.alternative {symbol : Symbol} {next : Word} (hsymbol : g.Reachable symbol)
    (hnext : next ∈ g.alternatives symbol) : ∀ found ∈ next, g.Reachable found := by
  intro found hfound
  rcases mem_alternatives hnext with ⟨-, rfl⟩ | ⟨choice, hchoice, item, hitem, rfl⟩
  · rwa [List.mem_singleton.mp hfound]
  · exact .successor hsymbol hchoice hitem hfound

/-- **No stage has a symbol that cannot be reached.** -/
theorem stage_reachable (source : Source) (n : Nat) :
    ∀ symbol ∈ (g.stage source n).word, g.Reachable symbol :=
  stage_forall_mem g.Reachable (fun _ => .start) Reachable.alternative source n

/-- Whether some symbols are all that the start word and their own alternatives need. -/
def closes (grammar : Grammar) (symbols : List Symbol) : Bool :=
  grammar.start.all symbols.contains &&
    symbols.all fun symbol => (grammar.alternatives symbol).all fun next => next.all symbols.contains

theorem closes_iff {symbols : List Symbol} : g.closes symbols = true ↔
    (∀ symbol ∈ g.start, symbol ∈ symbols) ∧
      ∀ symbol ∈ symbols, ∀ next ∈ g.alternatives symbol, ∀ found ∈ next, found ∈ symbols := by
  simp only [closes, Bool.and_eq_true, List.all_eq_true, List.contains_iff_mem]

/-- Nothing else can come up then. -/
theorem Reachable.mem_of_closes {symbols : List Symbol} (h : g.closes symbols = true) {symbol : Symbol}
    (hsymbol : g.Reachable symbol) : symbol ∈ symbols := by
  obtain ⟨hstart, hclosed⟩ := closes_iff.mp h
  induction hsymbol with
  | start hmem => exact hstart _ hmem
  | @successor symbol found choice item _ hchoice hitem hfound ih =>
    refine hclosed symbol ih item.2 ?_ found hfound
    rw [alternatives, hchoice]
    exact List.mem_map.mpr ⟨item, hitem, rfl⟩

/-! ### Grammars that agree on it -/

/-- What can be reached in one grammar can be reached in one that agrees on it. -/
theorem Reachable.of_agree (hstart : h.start = g.start)
    (hagree : ∀ symbol, g.Reachable symbol → h.production? symbol = g.production? symbol)
    {symbol : Symbol} (hsymbol : g.Reachable symbol) : h.Reachable symbol := by
  induction hsymbol with
  | start hmem => exact .start (hstart ▸ hmem)
  | successor hsymbol hchoice hitem hfound ih =>
    exact .successor ih ((hagree _ hsymbol).trans hchoice) hitem hfound

/-- Grammars that agree on what can be reached in one of them reach the same. -/
theorem reachable_congr (hstart : h.start = g.start)
    (hagree : ∀ symbol, g.Reachable symbol → h.production? symbol = g.production? symbol)
    (symbol : Symbol) : h.Reachable symbol ↔ g.Reachable symbol := by
  constructor
  · intro hsymbol
    induction hsymbol with
    | start hmem => exact .start (hstart ▸ hmem)
    | successor _ hchoice hitem hfound ih =>
      exact .successor ih ((hagree _ ih).symm.trans hchoice) hitem hfound
  · exact Reachable.of_agree hstart hagree

/-- **Grammars that agree on what can be reached go through the same stages.** -/
theorem stage_eq_of_agree (hstart : h.start = g.start)
    (hagree : ∀ symbol, g.Reachable symbol → h.production? symbol = g.production? symbol)
    (source : Source) (n : Nat) : h.stage source n = g.stage source n := by
  induction n with
  | zero =>
    show h.begin source = g.begin source
    rw [begin, begin, hstart]
  | succ n ih =>
    have hrewrite : h.rewrite (g.stage source n).word (g.stage source n).source =
        g.rewrite (g.stage source n).word (g.stage source n).source :=
      rewrite_congr (fun symbol hmem => hagree symbol (stage_reachable source n symbol hmem)) _
    show h.advance (h.stage source n) = g.advance (g.stage source n)
    rw [ih, advance, advance, hrewrite]

end Grammar

namespace Definition
variable {d e : Definition} {g h : Grammar}

/-- Items make one choice only, so productions with the same items are the same. -/
theorem production?_eq_of_items (hg : d.build = .ok g) (hh : e.build = .ok h) {symbol : Symbol}
    (hitems : (h.production? symbol).map (·.items) = (g.production? symbol).map (·.items)) :
    h.production? symbol = g.production? symbol := by
  cases hfirst : g.production? symbol with
  | none =>
    rw [hfirst] at hitems
    exact Option.map_eq_none_iff.mp hitems
  | some first =>
    rw [hfirst, Option.map_some] at hitems
    obtain ⟨second, hsecond, hsame⟩ := Option.map_eq_some_iff.mp hitems
    obtain ⟨rule, -, -, hrule⟩ := exists_rule_of_build hg hfirst
    obtain ⟨rule', -, -, hrule'⟩ := exists_rule_of_build hh hsecond
    rw [(WeightedChoice.ofItems_eq_ok hrule).1, (WeightedChoice.ofItems_eq_ok hrule').1] at hsame
    rw [List.toArray_inj hsame, hrule] at hrule'
    cases hrule'
    exact hsecond

end Definition

namespace Grammar

/-- **Rules that cannot be reached do nothing.** If two grammars have the same start word and the same
count of generations, and every symbol that can be reached has the same weighted successors in both
or none in both, then from any source they expand to the same word and keep the same history, report
the same, and leave the source in the same state. -/
theorem expand_unreachable {d e : Definition} {g h : Grammar} (hg : d.build = .ok g)
    (hh : e.build = .ok h) (hstart : h.start = g.start) (hgenerations : h.generations = g.generations)
    (hagree : ∀ symbol, g.Reachable symbol →
      (h.production? symbol).map (·.items) = (g.production? symbol).map (·.items))
    (source : Source) :
    h.expand source = g.expand source ∧ h.history source = g.history source ∧
      ∀ symbol, h.Reachable symbol ↔ g.Reachable symbol := by
  have hproductions (symbol : Symbol) (hsymbol : g.Reachable symbol) :
      h.production? symbol = g.production? symbol :=
    Definition.production?_eq_of_items hg hh (hagree symbol hsymbol)
  have hstage : h.stage source = g.stage source :=
    funext (stage_eq_of_agree hstart hproductions source)
  have hexpand : h.expand source = g.expand source := by
    rw [expand_eq_stage, expand_eq_stage, hstage, hgenerations]
  refine ⟨hexpand, ?_, reachable_congr hstart hproductions⟩
  rw [history_eq, history_eq, hstage, hexpand, hgenerations]

end Grammar

/-- A shoot with another angle, a color, and rules for flowers, which it never has. -/
def barren : Definition :=
  .ofClauses "SX".toList
    [ .angle 25,
      .color '1' (.hsb 120 100 61),
      .rule 'Y' [(3, "X1".toList), (1, "YY".toList)],
      .rule 'X' [(1, "F[X]X".toList), (1, "FX".toList)],
      .always '1' "Y".toList,
      .rule 'F' [(0, []), (2, "FF".toList)],
      .generations 2 ]

theorem expand_unreachable_barren : ∃ grammar other, shoot.build = .ok grammar ∧
    barren.build = .ok other ∧ grammar.production? 'Y' = none ∧ other.production? 'Y' ≠ none ∧
    other.expand (.cycle [0, 0xffffffff]) = grammar.expand (.cycle [0, 0xffffffff]) ∧
    other.history (.cycle [0, 0xffffffff]) = grammar.history (.cycle [0, 0xffffffff]) := by
  let symbols := "SXF[]".toList
  obtain ⟨grammar, hbuild, hkind⟩ := shoot.exists_of_makesSome
    (fun grammar => barren.makesSome fun other =>
      grammar.closes symbols &&
      (symbols.all fun symbol => decide ((other.production? symbol).map (·.items) =
        (grammar.production? symbol).map (·.items))) &&
      decide (other.start = grammar.start ∧ other.generations = grammar.generations) &&
      decide ((grammar.production? 'Y').isNone ∧ (other.production? 'Y').isSome)) (by decide +kernel)
  obtain ⟨other, hother, hpair⟩ := barren.exists_of_makesSome _ hkind
  simp only [Bool.and_eq_true, decide_eq_true_eq, List.all_eq_true] at hpair
  obtain ⟨⟨⟨hcloses, hitems⟩, hstart, hgenerations⟩, hnone, hsome⟩ := hpair
  obtain ⟨hexpand, hhistory, -⟩ := Grammar.expand_unreachable hbuild hother hstart hgenerations
    (fun symbol hsymbol => hitems symbol (hsymbol.mem_of_closes hcloses)) (.cycle [0, 0xffffffff])
  exact ⟨grammar, other, hbuild, hother, Option.isNone_iff_eq_none.mp hnone,
    Option.isSome_iff_ne_none.mp hsome, hexpand, hhistory⟩

end LSystem
