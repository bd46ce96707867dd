import LSystem.Proofs.Grammar.Alphabet
import LSystem.Proofs.Grammar.ZeroWeights
import Mathlib.Algebra.Order.BigOperators.Group.List
import Mathlib.Data.Matrix.Mul

/-! How words grow.

A generation has of every symbol what the successors have that were chosen for the symbols of the one
before, so its counts lie between sums of least and of greatest counts over the alternatives
(`count_le_of_rewrites`). Where every production is fixed, a symbol becomes the same each time, and
which symbol stands where no longer matters: the counts of a generation are a matrix of successor
counts times those of the one before (`counts_stage_succ`), so a power of the matrix leads from the
start word to any generation (`growth_law`). The letters that index the matrix are the alphabet, which
no generation leaves. -/
namespace LSystem

/-- A choice without a draw is of positive weight, whatever the source. -/
theorem WeightedChoice.weight_pos_of_isDeterministic {α : Type} {items : List (Single × α)}
    {choice : WeightedChoice α} (h : ofItems items = .ok choice)
    (hfixed : choice.isDeterministic = true) (source : Source) :
    Binary.lt 0 (choice.weight source.next.1) = true := by
  have hone := (isDeterministic_iff h).mp hfixed
  rw [positives_eq, ← Sampler.length_positivePlaces] at hone
  exact (choose_positive_iff h).mpr (.inl hone) source

namespace Grammar

/-! ### Any choice of successors -/

section
variable (grammar : Grammar)

/-- The fewest occurrences of the first symbol in what the second one can become. -/
def fewest (found symbol : Symbol) : Nat :=
  ((grammar.alternatives symbol).map (List.count found)).min?.getD 0

/-- The most occurrences of the first symbol in what the second one can become. -/
def most (found symbol : Symbol) : Nat :=
  ((grammar.alternatives symbol).map (List.count found)).max?.getD 0

end

variable {grammar : Grammar} {word : Word} {symbol : Symbol}

/-- A terminal becomes itself, once, and nothing else. -/
theorem count_of_terminal (h : grammar.production? symbol = none) {next : Word}
    (hnext : next ∈ grammar.alternatives symbol) (found : Symbol) :
    next.count found = if symbol = found then 1 else 0 := by
  rcases mem_alternatives hnext with ⟨-, rfl⟩ | ⟨choice, hchoice, -⟩
  · simp only [List.count_singleton, beq_iff_eq]
  · rw [h] at hchoice
    cases hchoice

/-- **What is chosen has no less than the least and no more than the most.** -/
theorem count_le_of_rewrites {nexts : List Word}
    (h : List.Forall₂ (fun symbol next => next ∈ grammar.alternatives symbol) word nexts)
    (found : Symbol) :
    (word.map (grammar.fewest found)).sum ≤ (nexts.map (List.count found)).sum ∧
      (nexts.map (List.count found)).sum ≤ (word.map (grammar.most found)).sum := by
  constructor
  · refine List.Forall₂.sum_le_sum (List.forall₂_map_left_iff.mpr (List.forall₂_map_right_iff.mpr ?_))
    exact h.imp fun symbol next hnext =>
      List.min?_getD_le_of_mem (List.mem_map.mpr ⟨next, hnext, rfl⟩)
  · refine List.Forall₂.sum_le_sum (List.forall₂_map_left_iff.mpr (List.forall₂_map_right_iff.mpr ?_))
    exact h.flip.imp fun next symbol hnext =>
      List.le_max?_getD_of_mem (List.mem_map.mpr ⟨next, hnext, rfl⟩)

theorem count_stage_succ (source : Source) (n : Nat) (found : Symbol) :
    (grammar.stage source (n + 1)).word.count found =
      ((grammar.outcomes (grammar.stage source n).source (grammar.stage source n).word).map
        (List.count found)).sum := by
  rw [(grammar.stage_succ source n).1, List.count_flatten]

/-! ### Fixed productions -/

variable (grammar) in
/-- What a symbol becomes if its production is fixed: its first alternative of positive weight. -/
def certain (symbol : Symbol) : Word := (grammar.live symbol).headD []

/-- A fixed production has one alternative of positive weight, and no other is chosen. -/
theorem live_of_fixed {definition : Definition} (h : definition.build = .ok grammar)
    (hfixed : ∀ symbol choice, grammar.production? symbol = some choice →
      choice.isDeterministic = true) (symbol : Symbol) :
    grammar.live symbol = [grammar.certain symbol] ∧
      ∀ source, (grammar.successor symbol source).1 = grammar.certain symbol := by
  have hmade (choice : WeightedChoice Word) (hchoice : grammar.production? symbol = some choice) :
      ∃ items, WeightedChoice.ofItems items = .ok choice ∧ choice.isDeterministic = true := by
    obtain ⟨rule, -, -, hrule⟩ := Definition.exists_rule_of_build h hchoice
    exact ⟨rule.2, hrule, hfixed symbol choice hchoice⟩
  have hlength : (grammar.live symbol).length = 1 := by
    unfold live
    cases hproduction : grammar.production? symbol with
    | none => rfl
    | some choice =>
      obtain ⟨items, hitems, hdeterministic⟩ := hmade choice hproduction
      rw [List.length_map, ← List.countP_eq_length_filter, (WeightedChoice.ofItems_eq_ok hitems).1]
      exact (WeightedChoice.isDeterministic_iff hitems).mp hdeterministic
  obtain ⟨only, honly⟩ := List.length_eq_one_iff.mp hlength
  have hcertain : grammar.certain symbol = only := by
    rw [certain, honly]
    rfl
  refine ⟨hcertain ▸ honly, fun source => ?_⟩
  have hmem := successor_live source fun choice hchoice => by
    obtain ⟨items, hitems, hdeterministic⟩ := hmade choice hchoice
    exact WeightedChoice.weight_pos_of_isDeterministic hitems hdeterministic source
  rw [honly, List.mem_singleton] at hmem
  rw [hmem, hcertain]

/-- Where every production is fixed, what becomes of a symbol does not depend on where it stands. -/
theorem outcomes_of_fixed (h : ∀ symbol source,
    (grammar.successor symbol source).1 = grammar.certain symbol) (source : Source) (word : Word) :
    grammar.outcomes source word = word.map grammar.certain := by
  have hsame : List.Forall₂ (· = ·) (word.map grammar.certain) (grammar.outcomes source word) :=
    List.forall₂_map_left_iff.mpr
      (grammar.forall₂_outcomes (fun symbol source => (h symbol source).symm) source word)
  rw [List.forall₂_eq_eq_eq] at hsame
  exact hsame.symm

/-! ### Letters -/

variable (grammar)

/-- The symbols of the alphabet. -/
abbrev Letter : Type := {symbol // symbol ∈ grammar.alphabet}

/-- How often each letter occurs in a word. -/
def counts (word : Word) : grammar.Letter → Nat := fun letter => word.count letter.1

/-- How often each letter occurs in what each letter becomes for certain. -/
def growthMatrix : Matrix grammar.Letter grammar.Letter Nat :=
  .of fun found letter => (grammar.certain letter.1).count found.1

variable {grammar}

/-- A sum over a word of letters is a sum over the letters. -/
theorem sum_map_eq_sum_counts (hword : ∀ symbol ∈ word, symbol ∈ grammar.alphabet)
    (weight : Symbol → Nat) :
    (word.map weight).sum = ∑ letter : grammar.Letter, grammar.counts word letter * weight letter.1 := by
  calc (word.map weight).sum
      = ∑ symbol ∈ word.toFinset, word.count symbol * weight symbol :=
        Finset.sum_list_map_count word weight
    _ = ∑ symbol ∈ grammar.alphabet.toFinset, word.count symbol * weight symbol := by
        refine Finset.sum_subset (fun symbol hmem => ?_) fun symbol _ hmem => ?_
        · exact List.mem_toFinset.mpr (hword symbol (List.mem_toFinset.mp hmem))
        · rw [List.count_eq_zero_of_not_mem fun h => hmem (List.mem_toFinset.mpr h), Nat.zero_mul]
    _ = _ := Finset.sum_subtype _ (fun _ => List.mem_toFinset) _

/-- All symbols of a word of letters are counted. -/
theorem length_eq_sum_counts (hword : ∀ symbol ∈ word, symbol ∈ grammar.alphabet) :
    word.length = ∑ letter, grammar.counts word letter := by
  have hsum := sum_map_eq_sum_counts hword fun _ => 1
  simpa using hsum

/-- **One generation multiplies the counts by the matrix.** -/
theorem counts_stage_succ (h : ∀ symbol source,
    (grammar.successor symbol source).1 = grammar.certain symbol) (source : Source) (n : Nat) :
    grammar.counts (grammar.stage source (n + 1)).word =
      grammar.growthMatrix.mulVec (grammar.counts (grammar.stage source n).word) := by
  funext found
  calc grammar.counts (grammar.stage source (n + 1)).word found
      = ((grammar.stage source n).word.map fun symbol =>
          (grammar.certain symbol).count found.1).sum := by
        rw [counts, count_stage_succ, outcomes_of_fixed h, List.map_map]
        rfl
    _ = ∑ letter, grammar.counts (grammar.stage source n).word letter *
          (grammar.certain letter.1).count found.1 :=
        sum_map_eq_sum_counts (stage_alphabet source n) _
    _ = _ := Finset.sum_congr rfl fun _ _ => Nat.mul_comm _ _

theorem counts_stage (h : ∀ symbol source,
    (grammar.successor symbol source).1 = grammar.certain symbol) (source : Source) (n : Nat) :
    grammar.counts (grammar.stage source n).word =
      (grammar.growthMatrix ^ n).mulVec (grammar.counts grammar.start) := by
  induction n with
  | zero =>
    rw [pow_zero, Matrix.one_mulVec]
    rfl
  | succ n ih => rw [counts_stage_succ h, ih, Matrix.mulVec_mulVec, ← pow_succ']

/-- **The growth of words.** A generation is put together from successors, one for every symbol of the
generation before and among the alternatives of that symbol. So it has of each symbol the sum of what
the successors have, which is between the sums of the fewest and of the most that an alternative has;
a symbol without a production counts for itself. If every production is fixed, a symbol becomes its
one alternative of positive weight, and the counts of a generation are the growth matrix times those
of the generation before, or a power of it times those of the start word; together they make up the
length. -/
theorem growth_law {definition : Definition} (h : definition.build = .ok grammar) (source : Source) :
    let word := fun n => (grammar.stage source n).word
    let chosen := fun n => grammar.outcomes (grammar.stage source n).source (word n)
    (∀ n ≤ grammar.generations, (grammar.history source).1[n]? = some (word n)) ∧
    (grammar.expand source).word = word grammar.generations ∧
    (∀ n, word (n + 1) = (chosen n).flatten ∧
      List.Forall₂ (fun symbol next => next ∈ grammar.alternatives symbol) (word n) (chosen n) ∧
      ∀ found, (word (n + 1)).count found = ((chosen n).map (List.count found)).sum ∧
        ((word n).map (grammar.fewest found)).sum ≤ (word (n + 1)).count found ∧
        (word (n + 1)).count found ≤ ((word n).map (grammar.most found)).sum) ∧
    (∀ symbol, grammar.production? symbol = none → ∀ next ∈ grammar.alternatives symbol,
      ∀ found, next.count found = if symbol = found then 1 else 0) ∧
    ((∀ symbol choice, grammar.production? symbol = some choice → choice.isDeterministic = true) →
      (∀ symbol, grammar.live symbol = [grammar.certain symbol]) ∧
      ∀ n, chosen n = (word n).map grammar.certain ∧
        grammar.counts (word (n + 1)) = grammar.growthMatrix.mulVec (grammar.counts (word n)) ∧
        grammar.counts (word n) = (grammar.growthMatrix ^ n).mulVec (grammar.counts grammar.start) ∧
        (∀ symbol ∈ word n, symbol ∈ grammar.alphabet) ∧
        (word n).length = ∑ letter, grammar.counts (word n) letter) := by
  intro word chosen
  refine ⟨fun n hn => getElem?_history source hn, rfl, fun n => ?_,
    fun symbol hterminal next hnext => count_of_terminal hterminal hnext, fun hfixed => ?_⟩
  · have hchosen := grammar.forall₂_outcomes grammar.successor_mem (grammar.stage source n).source (word n)
    refine ⟨(grammar.stage_succ source n).1, hchosen, fun found => ?_⟩
    have hcount : (word (n + 1)).count found = _ := count_stage_succ source n found
    rw [hcount]
    exact ⟨rfl, count_le_of_rewrites hchosen found⟩
  · have hcertain (symbol : Symbol) := (live_of_fixed h hfixed symbol).2
    refine ⟨fun symbol => (live_of_fixed h hfixed symbol).1, fun n => ⟨?_, ?_, ?_, ?_, ?_⟩⟩
    · exact outcomes_of_fixed hcertain _ _
    · exact counts_stage_succ hcertain source n
    · exact counts_stage hcertain source n
    · exact stage_alphabet source n
    · exact length_eq_sum_counts (stage_alphabet source n)

end Grammar

/-- A sprig always forks, its strokes double, and its buds fall off. -/
def sprig : Definition :=
  .ofClauses "X".toList
    [ .rule 'X' [(0, "X".toList), (2, "F[X]βX".toList)],
      .always 'F' "FF".toList,
      .always 'β' [],
      .generations 3 ]

/-- After three generations a sprig has twelve strokes, by the third power of its matrix. -/
theorem growth_law_sprig : ∃ grammar, ∃ stroke : grammar.Letter, sprig.build = .ok grammar ∧
    stroke.1 = 'F' ∧ (grammar.expand (.cycle [0])).word.length = 38 ∧
    grammar.counts (grammar.expand (.cycle [0])).word =
      (grammar.growthMatrix ^ 3).mulVec (grammar.counts "X".toList) ∧
    (grammar.growthMatrix ^ 3).mulVec (grammar.counts "X".toList) stroke = 12 := by
  obtain ⟨grammar, hbuild, hkind⟩ := sprig.exists_of_makesSome
    (fun grammar => decide (grammar.generations = 3 ∧ grammar.start = "X".toList ∧
      'F' ∈ grammar.alphabet ∧ (grammar.expand (.cycle [0])).word.count 'F' = 12 ∧
      (grammar.expand (.cycle [0])).word.length = 38 ∧
      ∀ entry ∈ grammar.productions.entries, entry.2.isDeterministic = true)) (by decide +kernel)
  obtain ⟨hgenerations, hstart, hstroke, hcount, hlength, hentries⟩ := of_decide_eq_true hkind
  have hfixed (symbol : Symbol) (choice : WeightedChoice Word)
      (hchoice : grammar.production? symbol = some choice) : choice.isDeterministic = true :=
    hentries _ (Table.mem_of_find? hchoice)
  obtain ⟨-, hlast, -, -, hcertain⟩ := Grammar.growth_law hbuild (.cycle [0])
  obtain ⟨-, -, hpower, -, -⟩ := (hcertain hfixed).2 grammar.generations
  rw [← hlast, hgenerations, hstart] at hpower
  refine ⟨grammar, ⟨'F', hstroke⟩, hbuild, rfl, hlength, hpower, ?_⟩
  rw [← hpower]
  exact hcount

end LSystem
