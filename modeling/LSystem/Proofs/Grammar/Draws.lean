import LSystem.Proofs.Choice.Acceptance
import LSystem.Proofs.Grammar.Generations

/-! The random words that rewriting draws.

A symbol takes one word of the source if its production leaves a choice, and none otherwise. So what
an occurrence becomes is a function of its symbol and of the one word whose number is the count of
random symbols before it (`Grammar.getElem?_outcomes`), and symbols that draw nothing can be put in
and left out anywhere without moving the choices at the others (`Grammar.outcomes_thin`). Over all
generations the draws add up along the history, and no word behind them has a say
(`Grammar.drawsInOrder`). -/
namespace LSystem

namespace Source
variable {s t : Source}

/-- The word that comes after so many others. -/
def ahead (source : Source) (count : Nat) : UInt32 := source.words (source.position + count)

/-- The source after so many draws. -/
def skip (source : Source) (count : Nat) : Source :=
  { source with position := source.position + count }

/-- So many words to come are the same. -/
def Agree (count : Nat) (s t : Source) : Prop := ∀ i < count, s.ahead i = t.ahead i

theorem skip_skip (source : Source) (m n : Nat) : (source.skip m).skip n = source.skip (m + n) := by
  simp only [skip, Nat.add_assoc]

theorem ahead_skip (source : Source) (m i : Nat) :
    (source.skip m).ahead i = source.ahead (m + i) := by
  simp only [ahead, skip, Nat.add_assoc]

theorem Agree.mono {m n : Nat} (h : Agree n s t) (hmn : m ≤ n) : Agree m s t :=
  fun i hi => h i (Nat.lt_of_lt_of_le hi hmn)

theorem Agree.skip {m n : Nat} (h : Agree (m + n) s t) : Agree n (s.skip m) (t.skip m) := by
  intro i hi
  rw [ahead_skip, ahead_skip]
  exact h (m + i) (Nat.add_lt_add_left hi m)

end Source

/-- The entries of a list at the places that are kept. -/
def thin {α : Type} (keep : Nat → Bool) : List α → List α
  | [] => []
  | entry :: rest =>
    if keep 0 then entry :: thin (fun i => keep (i + 1)) rest else thin (fun i => keep (i + 1)) rest

namespace Grammar
variable (grammar : Grammar)

/-! ### One symbol -/

/-- Whether a draw decides what a symbol becomes. -/
def isRandom (symbol : Symbol) : Bool :=
  (grammar.production? symbol).any fun choice => !choice.isDeterministic

/-- What a symbol becomes by a random word. -/
def outcome (symbol : Symbol) (random : UInt32) : Word :=
  match grammar.production? symbol with
  | some choice => choice.pick random
  | none => [symbol]

theorem successor_eq (symbol : Symbol) (source : Source) : grammar.successor symbol source =
    (grammar.outcome symbol (source.ahead 0),
      source.skip (if grammar.isRandom symbol then 1 else 0)) := by
  unfold successor outcome isRandom
  cases grammar.production? symbol with
  | none => rfl
  | some choice =>
    refine Prod.ext (choice.choose_fst source) ?_
    show (choice.choose source).2 = _
    unfold WeightedChoice.choose
    rw [Option.any_some]
    cases choice.isDeterministic <;> rfl

variable {grammar}

/-- Where no draw decides, any word gives the same. -/
theorem outcome_congr {symbol : Symbol} (h : grammar.isRandom symbol = false) (r s : UInt32) :
    grammar.outcome symbol r = grammar.outcome symbol s := by
  unfold isRandom at h
  unfold outcome
  cases hproduction : grammar.production? symbol with
  | none => rfl
  | some choice =>
    rw [hproduction, Option.any_some, Bool.not_eq_false'] at h
    apply WeightedChoice.pick_congr
    unfold WeightedChoice.isDeterministic at h
    cases hsampler : choice.sampler with
    | fixed place => rfl
    | weighted thresholds =>
      rw [hsampler] at h
      cases h

/-- A draw decides where a production has two alternatives of positive weight at least. -/
theorem isRandom_iff {definition : Definition} (h : definition.build = .ok grammar)
    {symbol : Symbol} : grammar.isRandom symbol = true ↔
      ∃ choice, grammar.production? symbol = some choice ∧
        2 ≤ WeightedChoice.positives choice.items.toList := by
  rw [isRandom, Option.any_eq_true]
  refine exists_congr fun choice => and_congr_right fun hchoice => ?_
  obtain ⟨rule, -, -, hmade⟩ := Definition.exists_rule_of_build h hchoice
  have hpos := WeightedChoice.positives_pos hmade
  have hfixed := WeightedChoice.isDeterministic_iff hmade
  rw [(WeightedChoice.ofItems_eq_ok hmade).1, List.toList_toArray, Bool.not_eq_true',
    ← Bool.not_eq_true, hfixed]
  omega

/-! ### One generation -/

variable (grammar)

/-- The number of symbols of a word that draws decide. -/
def draws (word : Word) : Nat := word.countP grammar.isRandom

/-- What the symbols of a word become, one by one. -/
def outcomes (source : Source) : Word → List Word
  | [] => []
  | symbol :: rest =>
    (grammar.successor symbol source).1 :: outcomes (grammar.successor symbol source).2 rest

theorem draws_cons (symbol : Symbol) (rest : Word) : grammar.draws (symbol :: rest) =
    (if grammar.isRandom symbol then 1 else 0) + grammar.draws rest := by
  rw [draws, List.countP_cons, Nat.add_comm]
  rfl

theorem outcomes_cons (source : Source) (symbol : Symbol) (rest : Word) :
    grammar.outcomes source (symbol :: rest) = grammar.outcome symbol (source.ahead 0) ::
      grammar.outcomes (source.skip (if grammar.isRandom symbol then 1 else 0)) rest := by
  rw [outcomes, successor_eq]

/-- **Rewriting writes what the symbols become, and takes one word for every random symbol.** -/
theorem rewrite_eq (word : Word) (source : Source) : grammar.rewrite word source =
    ((grammar.outcomes source word).flatten, source.skip (grammar.draws word)) := by
  induction word generalizing source with
  | nil => rfl
  | cons symbol rest ih =>
    rw [rewrite_cons, outcomes, successor_eq]
    simp only [ih, Source.skip_skip, draws_cons, List.flatten_cons]

/-- What every symbol has with whatever it becomes, the symbols of a word have with what they become. -/
theorem forall₂_outcomes {R : Symbol → Word → Prop}
    (h : ∀ symbol source, R symbol (grammar.successor symbol source).1) (source : Source)
    (word : Word) : List.Forall₂ R word (grammar.outcomes source word) := by
  induction word generalizing source with
  | nil => exact .nil
  | cons symbol rest ih => exact .cons (h symbol source) (ih _)

/-- **One word decides an occurrence**, the one after those of the random symbols before it. -/
theorem getElem?_outcomes (source : Source) (word : Word) (i : Nat) :
    (grammar.outcomes source word)[i]? = word[i]?.map fun symbol =>
      grammar.outcome symbol (source.ahead (grammar.draws (word.take i))) := by
  induction word generalizing source i with
  | nil => rfl
  | cons symbol rest ih =>
    rw [outcomes_cons]
    cases i with
    | zero => rfl
    | succ i =>
      rw [List.getElem?_cons_succ, List.getElem?_cons_succ, List.take_succ_cons, ih]
      simp only [Source.ahead_skip, draws_cons]

variable {grammar}

/-- Sources that agree on the words that are drawn make the same of a word. -/
theorem outcomes_congr {s t : Source} {word : Word} (h : Source.Agree (grammar.draws word) s t) :
    grammar.outcomes s word = grammar.outcomes t word := by
  induction word generalizing s t with
  | nil => rfl
  | cons symbol rest ih =>
    rw [draws_cons] at h
    have hfirst : grammar.outcome symbol (s.ahead 0) = grammar.outcome symbol (t.ahead 0) := by
      cases hrandom : grammar.isRandom symbol with
      | false => exact outcome_congr hrandom _ _
      | true =>
        rw [h 0 (by rw [hrandom, if_pos rfl]; omega)]
    rw [outcomes_cons, outcomes_cons, hfirst, ih h.skip]

/-- **Symbols that draw nothing leave the others as they are**: without some of them, the rest of the
word becomes what it did, and as many words are drawn. -/
theorem outcomes_thin (keep : Nat → Bool) {word : Word}
    (h : ∀ i symbol, word[i]? = some symbol → grammar.isRandom symbol = true → keep i = true)
    (source : Source) :
    grammar.outcomes source (thin keep word) = thin keep (grammar.outcomes source word) ∧
      grammar.draws (thin keep word) = grammar.draws word := by
  induction word generalizing keep source with
  | nil => exact ⟨rfl, rfl⟩
  | cons symbol rest ih =>
    have hrest := ih (fun i => keep (i + 1)) fun i other hother => h (i + 1) other hother
    rw [outcomes_cons, thin, thin]
    split
    · rw [outcomes_cons, draws_cons, draws_cons, (hrest _).1, (hrest source).2]
      exact ⟨rfl, rfl⟩
    · rename_i hkeep
      have hrandom : grammar.isRandom symbol = false := by
        rw [← Bool.not_eq_true]
        exact fun hrandom => hkeep (h 0 symbol rfl hrandom)
      rw [draws_cons, hrandom, (hrest source).2]
      exact ⟨(hrest source).1, (Nat.zero_add _).symm⟩

/-! ### All generations -/

variable (grammar)

/-- The number of words drawn by so many generations. -/
def drawsOf (source : Source) (generations : Nat) : Nat :=
  ((List.range generations).map fun k => grammar.draws (grammar.stage source k).word).sum

theorem drawsOf_succ (source : Source) (n : Nat) : grammar.drawsOf source (n + 1) =
    grammar.drawsOf source n + grammar.draws (grammar.stage source n).word := by
  rw [drawsOf, List.range_succ, List.map_append, List.sum_append, List.map_singleton,
    List.sum_singleton]
  rfl

/-- What is drawn for the words of a history, of which the last is not rewritten any more. -/
def demand (source : Source) : Nat :=
  (((grammar.history source).1.take grammar.generations).map grammar.draws).sum

theorem demand_eq (source : Source) :
    grammar.demand source = grammar.drawsOf source grammar.generations := by
  rw [demand, history_eq, ← List.map_take, List.take_range, Nat.min_eq_left (Nat.le_succ _),
    List.map_map]
  rfl

theorem stage_succ (source : Source) (n : Nat) :
    (grammar.stage source (n + 1)).word =
        (grammar.outcomes (grammar.stage source n).source (grammar.stage source n).word).flatten ∧
      (grammar.stage source (n + 1)).source =
        (grammar.stage source n).source.skip (grammar.draws (grammar.stage source n).word) :=
  Prod.ext_iff.mp (grammar.rewrite_eq _ _)

theorem source_stage (source : Source) (n : Nat) :
    (grammar.stage source n).source = source.skip (grammar.drawsOf source n) := by
  induction n with
  | zero => rfl
  | succ n ih => rw [(grammar.stage_succ source n).2, ih, Source.skip_skip, drawsOf_succ]

variable {grammar}

/-- Sources that agree on the words that are drawn go through the same stages. -/
theorem stage_congr {s t : Source} {n : Nat} (h : Source.Agree (grammar.drawsOf s n) s t) :
    (grammar.stage s n).word = (grammar.stage t n).word ∧
      (grammar.stage t n).source = t.skip (grammar.drawsOf s n) := by
  induction n with
  | zero => exact ⟨rfl, rfl⟩
  | succ n ih =>
    rw [drawsOf_succ] at h
    obtain ⟨hword, hsource⟩ := ih (h.mono (Nat.le_add_right _ _))
    obtain ⟨hs, -⟩ := grammar.stage_succ s n
    obtain ⟨ht, htsource⟩ := grammar.stage_succ t n
    rw [hs, ht, htsource, hsource, source_stage, ← hword, Source.skip_skip, drawsOf_succ]
    exact ⟨congrArg _ (outcomes_congr h.skip), rfl⟩

/-- Random words are taken in the order of the symbols, and one for each that asks for it. -/
structure DrawsInOrder (grammar : Grammar) : Prop where
  /-- A draw decides exactly where two alternatives at least have a positive weight. -/
  random_iff : ∀ symbol, grammar.isRandom symbol = true ↔
    ∃ choice, grammar.production? symbol = some choice ∧
      2 ≤ WeightedChoice.positives choice.items.toList
  /-- The second part of a word is rewritten from where the first part left the source. -/
  append : ∀ u v source, grammar.rewrite (u ++ v) source =
    ((grammar.rewrite u source).1 ++ (grammar.rewrite v (grammar.rewrite u source).2).1,
      (grammar.rewrite v (grammar.rewrite u source).2).2)
  /-- One word is drawn where a draw decides, and none elsewhere. -/
  single : ∀ symbol source, (grammar.rewrite [symbol] source).2 =
    source.skip (if grammar.isRandom symbol then 1 else 0)
  /-- A word becomes what its symbols become, and draws for the random ones. -/
  whole : ∀ word source, grammar.rewrite word source =
    ((grammar.outcomes source word).flatten, source.skip (grammar.draws word))
  /-- The one word that decides a symbol is the one behind those of the random symbols before. -/
  decided : ∀ source word i, (grammar.outcomes source word)[i]? = word[i]?.map fun symbol =>
    grammar.outcome symbol (source.ahead (grammar.draws (word.take i)))
  /-- No word decides any other symbol. -/
  settled : ∀ symbol, grammar.isRandom symbol = false → ∀ r s,
    grammar.outcome symbol r = grammar.outcome symbol s
  /-- Symbols that draw nothing can be left out, or put in, between the others. -/
  thinned : ∀ keep word,
    (∀ i symbol, word[i]? = some symbol → grammar.isRandom symbol = true → keep i = true) →
      ∀ source, grammar.outcomes source (thin keep word) = thin keep (grammar.outcomes source word) ∧
        (grammar.rewrite (thin keep word) source).2 = (grammar.rewrite word source).2
  /-- An expansion draws for all words of its history but the last. -/
  expansion : ∀ source, (grammar.expand source).source = source.skip (grammar.demand source)
  /-- No word behind those has a say. -/
  confined : ∀ source other, source.Agree (grammar.demand source) other →
    (grammar.expand source).word = (grammar.expand other).word
  /-- Where every production is fixed, no word has. -/
  certain : (∀ symbol choice, grammar.production? symbol = some choice →
    choice.isDeterministic = true) → ∀ source other,
      (grammar.expand source).word = (grammar.expand other).word ∧
        (grammar.expand source).source = source

theorem draws_of_fixed (h : ∀ symbol choice, grammar.production? symbol = some choice →
    choice.isDeterministic = true) (word : Word) : grammar.draws word = 0 := by
  rw [draws, List.countP_eq_zero]
  intro symbol _ hrandom
  obtain ⟨choice, hchoice, hfree⟩ := (Option.any_eq_true ..).mp hrandom
  rw [h symbol choice hchoice] at hfree
  cases hfree

/-- **Random words are drawn in the order of the symbols that ask for them.** Whatever a grammar
rewrites, each occurrence of a symbol with a choice takes the next word and is decided by it alone,
and no other symbol takes or moves any. An expansion takes as many words as its history has such
occurrences before the last word, and is a function of those. -/
theorem drawsInOrder {definition : Definition} (h : definition.build = .ok grammar) :
    DrawsInOrder grammar where
  random_iff _ := isRandom_iff h
  append := grammar.rewrite_append
  single symbol source := by rw [rewrite_eq, draws_cons]; rfl
  whole := grammar.rewrite_eq
  decided := grammar.getElem?_outcomes
  settled _ hrandom := outcome_congr hrandom
  thinned keep word hkeep source := by
    obtain ⟨houtcomes, hdraws⟩ := outcomes_thin keep hkeep source
    rw [rewrite_eq, rewrite_eq, hdraws]
    exact ⟨houtcomes, rfl⟩
  expansion source := by
    rw [demand_eq]
    exact grammar.source_stage source _
  confined source other hagree := by
    rw [demand_eq] at hagree
    exact (stage_congr hagree).1
  certain hfixed source other := by
    have hnone : grammar.drawsOf source grammar.generations = 0 := by
      simp [drawsOf, draws_of_fixed hfixed]
    refine ⟨(stage_congr ?_).1, ?_⟩
    · rw [hnone]
      exact fun i hi => absurd hi (Nat.not_lt_zero i)
    · rw [expand_eq_stage, source_stage, hnone]
      rfl

end Grammar

/-- A shoot draws for the three tips of its first two words, and the fourth word of a source has no
say; the strokes have one live alternative and draw nothing. -/
theorem drawsInOrder_shoot : ∃ grammar, shoot.build = .ok grammar ∧
    grammar.isRandom 'X' = true ∧ grammar.isRandom 'F' = false ∧
    (grammar.expand (.cycle [0])).source = Source.skip (.cycle [0]) 3 ∧
    Source.Agree 3 (.cycle [0]) (.cycle [0, 0, 0, 0xffffffff]) ∧
    (grammar.expand (.cycle [0])).word = (grammar.expand (.cycle [0, 0, 0, 0xffffffff])).word := by
  obtain ⟨grammar, hbuild, hkind⟩ := shoot.exists_of_makesSome
    (fun grammar => decide (grammar.isRandom 'X' = true ∧ grammar.isRandom 'F' = false ∧
      grammar.demand (.cycle [0]) = 3)) (by decide +kernel)
  obtain ⟨htip, hstroke, hdemand⟩ := of_decide_eq_true hkind
  have hagree : Source.Agree 3 (.cycle [0]) (.cycle [0, 0, 0, 0xffffffff]) := by
    unfold Source.Agree
    decide
  have hdraws := Grammar.drawsInOrder hbuild
  have hsource := hdraws.expansion (.cycle [0])
  rw [hdemand] at hsource
  refine ⟨grammar, hbuild, htip, hstroke, hsource, hagree, hdraws.confined _ _ ?_⟩
  rw [hdemand]
  exact hagree

end LSystem
