import LSystem.Proofs.Choice.Acceptance
import LSystem.Proofs.Grammar.Alphabet
import LSystem.Proofs.Grammar.Productions

/-! What clauses come to.

Read backwards, a list of clauses says first what it says in the end: its settings are the first
angle, count, rule for a symbol and color under a key on that way (`Settings.ofClauses`). The
definition that is put together clause by clause holds these and nothing else, and lists the rules by
the last clause on each symbol (`Definition.reflects_ofClauses`). So the settings alone decide whether
there is a grammar, and which, and the first check that they fail is the fault (`ofClauses_outcome`). -/
namespace LSystem

namespace Table
variable {α : Type}

/-- **A table is what is found in it.** -/
theorem ext_find? {s t : Table α} (h : ∀ key, s.find? key = t.find? key) : s = t := by
  have hnodup (table : Table α) : table.entries.Nodup :=
    table.sorted.imp fun hlt heq => absurd (heq ▸ hlt) (Char.lt_irrefl _)
  have hmem (entry : Symbol × α) : entry ∈ s.entries ↔ entry ∈ t.entries :=
    ⟨fun hs => mem_of_find? ((h entry.1) ▸ find?_of_mem hs),
      fun ht => mem_of_find? ((h entry.1).symm ▸ find?_of_mem ht)⟩
  have hentries : s.entries = t.entries :=
    ((List.perm_ext_iff_of_nodup (hnodup s) (hnodup t)).mpr hmem).eq_of_pairwise
      (fun a b _ _ hab hba => absurd (Char.lt_trans hab hba) (Char.lt_irrefl _)) s.sorted t.sorted
  cases s
  cases t
  cases hentries
  rfl

end Table

/-! ### Settings -/

namespace Clause

/-- The turn angle that a clause gives. -/
def angle? : Clause → Option Single
  | angle degrees => some degrees
  | _ => none

/-- The count of generations that a clause gives. -/
def generations? : Clause → Option Nat
  | generations count => some count
  | _ => none

/-- The alternatives that a clause gives to a symbol. -/
def alternatives? (symbol : Symbol) : Clause → Option (List (Single × Word))
  | rule predecessor alternatives => if predecessor = symbol then some alternatives else none
  | _ => none

/-- The color that a clause puts under a key. -/
def color? (key : Symbol) : Clause → Option Color
  | .color other value => if other = key then some value else none
  | _ => none

/-- What clauses give last. -/
def last? {α : Type} (view : Clause → Option α) (clauses : List Clause) : Option α :=
  clauses.reverse.findSome? view

/-- How many clauses were made since the last rule for a symbol. -/
def age (symbol : Symbol) (clauses : List Clause) : Nat :=
  clauses.reverse.findIdx fun clause => (clause.alternatives? symbol).isSome

theorem last?_snoc {α : Type} (view : Clause → Option α) (clauses : List Clause) (clause : Clause) :
    last? view (clauses ++ [clause]) = (view clause).or (last? view clauses) := by
  rw [last?, List.reverse_append, List.reverse_singleton, List.singleton_append,
    List.findSome?_cons]
  cases view clause <;> rfl

theorem age_snoc (symbol : Symbol) (clauses : List Clause) (clause : Clause) :
    age symbol (clauses ++ [clause]) =
      if (clause.alternatives? symbol).isSome then 0 else age symbol clauses + 1 := by
  rw [age, List.reverse_append, List.reverse_singleton, List.singleton_append, List.findIdx_cons,
    cond_eq_ite]
  rfl

end Clause

/-- What clauses say in the end. -/
structure Settings where
  angle : Single
  generations : Nat
  /-- The alternatives of every symbol with a rule. -/
  alternatives? : Symbol → Option (List (Single × Word))
  /-- The color under every key. -/
  color? : Symbol → Option Color

namespace Settings

/-- The last angle, count, alternatives of every symbol and color under every key. -/
def ofClauses (clauses : List Clause) : Settings where
  angle := (Clause.last? Clause.angle? clauses).getD 90
  generations := (Clause.last? Clause.generations? clauses).getD 0
  alternatives? symbol := Clause.last? (Clause.alternatives? symbol) clauses
  color? key := Clause.last? (Clause.color? key) clauses

theorem angle_snoc (clauses : List Clause) (clause : Clause) :
    (ofClauses (clauses ++ [clause])).angle = clause.angle?.getD (ofClauses clauses).angle := by
  simp only [ofClauses, Clause.last?_snoc, Option.getD_or]

theorem generations_snoc (clauses : List Clause) (clause : Clause) :
    (ofClauses (clauses ++ [clause])).generations =
      clause.generations?.getD (ofClauses clauses).generations := by
  simp only [ofClauses, Clause.last?_snoc, Option.getD_or]

theorem alternatives?_snoc (clauses : List Clause) (clause : Clause) (symbol : Symbol) :
    (ofClauses (clauses ++ [clause])).alternatives? symbol =
      (clause.alternatives? symbol).or ((ofClauses clauses).alternatives? symbol) :=
  Clause.last?_snoc _ _ _

theorem color?_snoc (clauses : List Clause) (clause : Clause) (key : Symbol) :
    (ofClauses (clauses ++ [clause])).color? key =
      (clause.color? key).or ((ofClauses clauses).color? key) :=
  Clause.last?_snoc _ _ _

/-- Settings that make a grammar with a start word. -/
structure Valid (settings : Settings) (start : Word) : Prop where
  angle : settings.angle.isFinite = true
  alphabet : start ≠ [] ∨ ∃ symbol, settings.alternatives? symbol ≠ none
  keys : ∀ key ∈ structuralSymbols, settings.color? key = none
  rules : ∀ symbol alternatives, settings.alternatives? symbol = some alternatives →
    ∃ choice, WeightedChoice.ofItems alternatives = .ok choice

/-- The grammar has these settings, and no other productions and colors. -/
structure Describes (settings : Settings) (start : Word) (grammar : Grammar) : Prop where
  start : grammar.start = start
  angle : grammar.angle = settings.angle
  generations : grammar.generations = settings.generations
  color : ∀ key, grammar.color? key = settings.color? key
  production : ∀ symbol choice, grammar.production? symbol = some choice ↔
    ∃ alternatives, settings.alternatives? symbol = some alternatives ∧
      WeightedChoice.ofItems alternatives = .ok choice

/-- Settings describe one grammar at most. -/
theorem Describes.unique {settings : Settings} {start : Word} {g h : Grammar}
    (hg : settings.Describes start g) (hh : settings.Describes start h) : g = h := by
  have hproductions : g.productions = h.productions := Table.ext_find? fun symbol =>
    Option.ext fun choice => (hg.production symbol choice).trans (hh.production symbol choice).symm
  have hcolors : g.colors = h.colors := Table.ext_find? fun key =>
    (hg.color key).trans (hh.color key).symm
  have hstart := hg.start.trans hh.start.symm
  have hangle := hg.angle.trans hh.angle.symm
  have hgenerations := hg.generations.trans hh.generations.symm
  cases g
  cases h
  cases hproductions
  cases hcolors
  cases hstart
  cases hangle
  cases hgenerations
  rfl

end Settings

/-! ### Definitions -/

namespace Definition
variable {start : Word} {definition : Definition} {clauses : List Clause} {grammar : Grammar}

theorem angle_add (definition : Definition) (clause : Clause) :
    (definition.add clause).angle = clause.angle?.getD definition.angle := by
  cases clause <;> rfl

theorem generations_add (definition : Definition) (clause : Clause) :
    (definition.add clause).generations = clause.generations?.getD definition.generations := by
  cases clause <;> rfl

theorem find?_colors_add (definition : Definition) (clause : Clause) (key : Symbol) :
    (definition.add clause).colors.find? key =
      (clause.color? key).or (definition.colors.find? key) := by
  cases clause with
  | color bound color =>
    show (definition.colors.insert bound color).find? key = _
    rw [Table.find?_insert, Clause.color?]
    split <;> rfl
  | angle degrees => rfl
  | generations count => rfl
  | rule symbol alternatives => rfl

theorem mem_rules_add {symbol : Symbol} {alternatives : List (Single × Word)} {clause : Clause} :
    (symbol, alternatives) ∈ (definition.add clause).rules ↔
      clause.alternatives? symbol = some alternatives ∨
        clause.alternatives? symbol = none ∧ (symbol, alternatives) ∈ definition.rules := by
  cases clause with
  | rule predecessor given =>
    show _ ∈ definition.rules.filter _ ++ [(predecessor, given)] ↔ _
    rw [List.mem_append, List.mem_filter, List.mem_singleton, Clause.alternatives?]
    by_cases hsymbol : predecessor = symbol
    · subst hsymbol
      simp [eq_comm]
    · simp [hsymbol, Ne.symm hsymbol]
  | angle degrees => simp [add, Clause.alternatives?]
  | generations count => simp [add, Clause.alternatives?]
  | color key color => simp [add, Clause.alternatives?]

/-- The definition holds what the clauses say in the end, and its rules by the last clause on each. -/
structure Reflects (definition : Definition) (start : Word) (clauses : List Clause) : Prop where
  start : definition.start = start
  angle : definition.angle = (Settings.ofClauses clauses).angle
  generations : definition.generations = (Settings.ofClauses clauses).generations
  color : ∀ key, definition.colors.find? key = (Settings.ofClauses clauses).color? key
  rule : ∀ symbol alternatives, (symbol, alternatives) ∈ definition.rules ↔
    (Settings.ofClauses clauses).alternatives? symbol = some alternatives
  ordered : definition.rules.Pairwise fun earlier later =>
    Clause.age later.1 clauses < Clause.age earlier.1 clauses

/-- A clause makes every rule older but that of its own symbol. -/
theorem ordered_add (clause : Clause) (h : definition.rules.Pairwise fun earlier later =>
      Clause.age later.1 clauses < Clause.age earlier.1 clauses) :
    (definition.add clause).rules.Pairwise fun earlier later =>
      Clause.age later.1 (clauses ++ [clause]) < Clause.age earlier.1 (clauses ++ [clause]) := by
  cases clause with
  | rule symbol alternatives =>
    have hown : Clause.age symbol (clauses ++ [.rule symbol alternatives]) = 0 := by
      rw [Clause.age_snoc, Clause.alternatives?, if_pos rfl]
      rfl
    have hother {rule : Symbol × List (Single × Word)}
        (hrule : rule ∈ definition.rules.filter fun rule => rule.1 ≠ symbol) :
        Clause.age rule.1 (clauses ++ [.rule symbol alternatives]) =
          Clause.age rule.1 clauses + 1 := by
      have hne : rule.1 ≠ symbol := of_decide_eq_true (List.mem_filter.mp hrule).2
      rw [Clause.age_snoc, Clause.alternatives?, if_neg hne.symm]
      rfl
    refine List.pairwise_append.mpr ⟨?_, List.pairwise_singleton _ _, ?_⟩
    · refine (h.filter _).imp_of_mem fun hearlier hlater hlt => ?_
      rw [hother hearlier, hother hlater]
      exact Nat.succ_lt_succ hlt
    · intro earlier hearlier later hlater
      rw [List.mem_singleton.mp hlater, hown, hother hearlier]
      exact Nat.succ_pos _
  | angle degrees => simpa [add, Clause.age_snoc, Clause.alternatives?] using h
  | generations count => simpa [add, Clause.age_snoc, Clause.alternatives?] using h
  | color key color => simpa [add, Clause.age_snoc, Clause.alternatives?] using h

/-- One more clause is reflected by adding it. -/
theorem Reflects.add (h : definition.Reflects start clauses) (clause : Clause) :
    (definition.add clause).Reflects start (clauses ++ [clause]) where
  start := by
    rw [← h.start]
    cases clause <;> rfl
  angle := by rw [angle_add, Settings.angle_snoc, h.angle]
  generations := by rw [generations_add, Settings.generations_snoc, h.generations]
  color key := by rw [find?_colors_add, Settings.color?_snoc, h.color]
  rule symbol alternatives := by
    rw [mem_rules_add, Settings.alternatives?_snoc, Option.or_eq_some_iff, h.rule]
  ordered := ordered_add clause h.ordered

/-- **A definition holds what its clauses say in the end.** -/
theorem reflects_ofClauses (start : Word) (clauses : List Clause) :
    (ofClauses start clauses).Reflects start clauses := by
  induction clauses using List.reverseRecOn with
  | nil => exact ⟨rfl, rfl, rfl, fun _ => rfl, fun _ _ => ⟨nofun, nofun⟩, .nil⟩
  | append_singleton clauses clause ih =>
    rw [ofClauses, List.foldl_append]
    exact ih.add clause

/-- A rule that is said again comes behind those that were said meanwhile. -/
example : (ofClauses [] [.rule 'A' [], .rule 'B' [], .always 'A' ['B']]).rules =
    [('B', []), ('A', [(1, ['B'])])] := by
  rfl

namespace Reflects

theorem empty_iff (h : definition.Reflects start clauses) :
    definition.start = [] ∧ definition.rules = [] ↔
      start = [] ∧ ∀ symbol, (Settings.ofClauses clauses).alternatives? symbol = none := by
  rw [h.start]
  refine and_congr_right fun _ => ⟨fun hnil symbol => ?_, fun hnone => ?_⟩
  · refine Option.eq_none_iff_forall_ne_some.mpr fun alternatives hsome => ?_
    have hmem := (h.rule symbol alternatives).mpr hsome
    rw [hnil] at hmem
    cases hmem
  · refine List.eq_nil_iff_forall_not_mem.mpr fun rule hrule => ?_
    have hsome := (h.rule rule.1 rule.2).mp hrule
    rw [hnone] at hsome
    cases hsome

theorem mem_keys_iff (h : definition.Reflects start clauses) {key : Symbol} :
    key ∈ definition.colors.keys ↔ (Settings.ofClauses clauses).color? key ≠ none := by
  rw [Table.mem_keys_iff, ← h.color, Option.ne_none_iff_exists']

/-- **What is made of a definition has the settings of its clauses.** -/
theorem describes (h : definition.Reflects start clauses) (hmakes : definition.Makes grammar) :
    (Settings.ofClauses clauses).Describes start grammar where
  start := hmakes.start.trans h.start
  angle := hmakes.angle.trans h.angle
  generations := hmakes.generations.trans h.generations
  color key := by rw [Grammar.color?, hmakes.colors, h.color]
  production symbol choice := by
    have hrule {found : WeightedChoice Word} (hfound : grammar.production? symbol = some found) :
        ∃ alternatives, (Settings.ofClauses clauses).alternatives? symbol = some alternatives ∧
          WeightedChoice.ofItems alternatives = .ok found := by
      rcases find?_productionsFrom hmakes.productions hfound with hempty | ⟨rule, hmem, rfl, hmade⟩
      · cases hempty
      · exact ⟨rule.2, (h.rule rule.1 rule.2).mp hmem, hmade⟩
    refine ⟨hrule, fun ⟨alternatives, hlast, hmade⟩ => ?_⟩
    have hmem := (h.rule symbol alternatives).mpr hlast
    obtain ⟨found, hfound⟩ := Option.ne_none_iff_exists'.mp
      (rule_of_productionsFrom hmakes.productions hmem).2
    obtain ⟨others, hothers, hfoundMade⟩ := hrule hfound
    cases hlast.symm.trans hothers
    cases hmade.symm.trans hfoundMade
    exact hfound

theorem valid (h : definition.Reflects start clauses) (hmakes : definition.Makes grammar) :
    (Settings.ofClauses clauses).Valid start where
  angle := by
    rw [← h.angle, ← hmakes.angle]
    exact grammar.angle_isFinite
  alphabet := by
    refine grammar.inhabited.imp (fun hstart => ?_) fun hentries => ?_
    · rwa [← h.start, ← hmakes.start]
    · obtain ⟨entry, hentry⟩ := List.exists_mem_of_ne_nil _ hentries
      obtain ⟨alternatives, hlast, -⟩ :=
        ((h.describes hmakes).production entry.1 entry.2).mp (Table.find?_of_mem hentry)
      exact ⟨entry.1, by rw [hlast]; exact Option.some_ne_none _⟩
  keys key hkey := by
    by_contra hcolor
    refine grammar.colors_free key ?_ hkey
    rw [hmakes.colors]
    exact h.mem_keys_iff.mpr hcolor
  rules symbol alternatives hlast :=
    (rule_of_productionsFrom hmakes.productions ((h.rule symbol alternatives).mpr hlast)).1

end Reflects

end Definition

/-! ### Faults -/

/-- The first check that clauses fail: the angle, the alphabet, the keys of the colors, and then the
rules in the order of the last clauses on their symbols. -/
inductive FirstFault (start : Word) (clauses : List Clause) : DefinitionError → Prop where
  | invalidAngle (h : (Settings.ofClauses clauses).angle.isFinite = false) :
      FirstFault start clauses (.invalidAngle (Settings.ofClauses clauses).angle)
  | emptyAlphabet (hangle : (Settings.ofClauses clauses).angle.isFinite = true)
      (hstart : start = []) (h : ∀ symbol, (Settings.ofClauses clauses).alternatives? symbol = none) :
      FirstFault start clauses .emptyAlphabet
  | invalidColorKey {key : Symbol} (hangle : (Settings.ofClauses clauses).angle.isFinite = true)
      (halphabet : start ≠ [] ∨ ∃ symbol, (Settings.ofClauses clauses).alternatives? symbol ≠ none)
      (hkey : key ∈ structuralSymbols) (h : (Settings.ofClauses clauses).color? key ≠ none) :
      FirstFault start clauses (.invalidColorKey key)
  | rule {symbol : Symbol} {alternatives : List (Single × Word)} {fault : ChoiceError}
      (hangle : (Settings.ofClauses clauses).angle.isFinite = true)
      (halphabet : start ≠ [] ∨ ∃ symbol, (Settings.ofClauses clauses).alternatives? symbol ≠ none)
      (hkeys : ∀ key ∈ structuralSymbols, (Settings.ofClauses clauses).color? key = none)
      (hlast : (Settings.ofClauses clauses).alternatives? symbol = some alternatives)
      (hchoice : WeightedChoice.ofItems alternatives = .error fault)
      (h : Sampler.Fault (alternatives.map (·.1)) fault)
      (hearlier : ∀ other given, (Settings.ofClauses clauses).alternatives? other = some given →
        Clause.age symbol clauses < Clause.age other clauses →
          ∃ choice, WeightedChoice.ofItems given = .ok choice) :
      FirstFault start clauses (.ofChoice symbol fault)

/-- A fault is none of valid settings. -/
theorem FirstFault.not_valid {start : Word} {clauses : List Clause} {error : DefinitionError}
    (h : FirstFault start clauses error) : ¬(Settings.ofClauses clauses).Valid start := by
  intro hvalid
  cases h with
  | invalidAngle h =>
    rw [hvalid.angle] at h
    cases h
  | emptyAlphabet _ hstart h =>
    exact hvalid.alphabet.elim (· hstart) fun ⟨symbol, hsymbol⟩ => hsymbol (h symbol)
  | invalidColorKey _ _ hkey h => exact h (hvalid.keys _ hkey)
  | rule _ _ _ hlast hchoice _ _ =>
    obtain ⟨choice, hmade⟩ := hvalid.rules _ _ hlast
    rw [hchoice] at hmade
    cases hmade

namespace Definition
variable {start : Word} {definition : Definition} {clauses : List Clause}

theorem Reflects.fault_of_rules (h : definition.Reflects start clauses) {error : DefinitionError}
    (hangle : (Settings.ofClauses clauses).angle.isFinite = true)
    (halphabet : start ≠ [] ∨ ∃ symbol, (Settings.ofClauses clauses).alternatives? symbol ≠ none)
    (hkeys : ∀ key ∈ structuralSymbols, (Settings.ofClauses clauses).color? key = none)
    (herror : productionsFrom .empty definition.rules = .error error) :
    FirstFault start clauses error := by
  obtain ⟨front, rule, back, fault, hrules, hfront, hchoice, rfl⟩ := productionsFrom_eq_error herror
  have hordered := h.ordered
  rw [hrules, List.pairwise_append, List.pairwise_cons] at hordered
  have hlast : (Settings.ofClauses clauses).alternatives? rule.1 = some rule.2 := by
    rw [← h.rule, hrules]
    exact List.mem_append_right _ List.mem_cons_self
  refine .rule hangle halphabet hkeys hlast hchoice (WeightedChoice.fault_of_ofItems hchoice) ?_
  intro other given hgiven hage
  rw [← h.rule, hrules] at hgiven
  rcases List.mem_append.mp hgiven with hmem | hmem
  · exact hfront _ hmem
  · -- The rest of the rules is younger than the one at fault.
    rcases List.mem_cons.mp hmem with heq | hlater
    · rw [← heq] at hage
      exact absurd hage (Nat.lt_irrefl _)
    · exact absurd hage (Nat.lt_asymm (hordered.2.1.1 _ hlater))

/-- **A definition is rejected for the first check that its clauses fail.** -/
theorem Reflects.fault (h : definition.Reflects start clauses) {error : DefinitionError}
    (herror : definition.build = .error error) : FirstFault start clauses error := by
  have halphabet (hempty : ¬(definition.start = [] ∧ definition.rules = [])) :
      start ≠ [] ∨ ∃ symbol, (Settings.ofClauses clauses).alternatives? symbol ≠ none := by
    rw [h.empty_iff, not_and_or, not_forall] at hempty
    exact hempty
  unfold build at herror
  split at herror
  · rename_i hangle
    rw [h.angle] at hangle
    split at herror
    · rename_i hempty
      cases herror
      obtain ⟨hstart, hnone⟩ := h.empty_iff.mp hempty
      exact .emptyAlphabet hangle hstart hnone
    · rename_i hempty
      split at herror
      · rename_i key hkey
        cases herror
        exact .invalidColorKey hangle (halphabet hempty)
          (List.contains_iff_mem.mp (List.find?_some hkey))
          (h.mem_keys_iff.mp (List.mem_of_find?_eq_some hkey))
      · rename_i hkeys
        split at herror
        · rename_i fault hfault
          cases herror
          refine h.fault_of_rules hangle (halphabet hempty) (fun key hkey => ?_) hfault
          by_contra hcolor
          exact List.find?_eq_none.mp hkeys key (h.mem_keys_iff.mpr hcolor)
            (List.contains_iff_mem.mpr hkey)
        · cases herror
  · rename_i hangle
    cases herror
    rw [h.angle] at hangle ⊢
    exact .invalidAngle (Bool.eq_false_iff.mpr hangle)

/-! ### Replaced rules -/

/-- The definition without the rule for a symbol. -/
def withoutRule (definition : Definition) (symbol : Symbol) : Definition :=
  { definition with rules := definition.rules.filter fun rule => rule.1 ≠ symbol }

theorem withoutRule_add_rule (definition : Definition) (symbol : Symbol)
    (alternatives : List (Single × Word)) :
    (definition.add (.rule symbol alternatives)).withoutRule symbol =
      definition.withoutRule symbol := by
  simp [withoutRule, add, List.filter_filter]

/-- A rule replaces the one before, if there is one. -/
theorem add_rule_eq (definition : Definition) (symbol : Symbol)
    (alternatives : List (Single × Word)) :
    definition.add (.rule symbol alternatives) =
      (definition.withoutRule symbol).add (.rule symbol alternatives) := by
  simp [withoutRule, add, List.filter_filter]

theorem withoutRule_add (definition : Definition) (symbol : Symbol) (clause : Clause) :
    (definition.add clause).withoutRule symbol =
      ((definition.withoutRule symbol).add clause).withoutRule symbol := by
  cases clause with
  | rule predecessor alternatives =>
    simp [withoutRule, add, List.filter_filter, Bool.and_comm]
  | angle degrees => simp [withoutRule, add, List.filter_filter]
  | generations count => simp [withoutRule, add, List.filter_filter]
  | color key color => simp [withoutRule, add, List.filter_filter]

/-- Definitions that differ in one rule become the same once it is replaced. -/
theorem foldl_add_eq {symbol : Symbol} {later : List (Single × Word)} {d e : Definition}
    (hsame : d.withoutRule symbol = e.withoutRule symbol) (hlater : .rule symbol later ∈ clauses) :
    clauses.foldl add d = clauses.foldl add e := by
  induction clauses generalizing d e with
  | nil => cases hlater
  | cons clause rest ih =>
    rw [List.foldl_cons, List.foldl_cons]
    rcases List.mem_cons.mp hlater with rfl | hrest
    · rw [d.add_rule_eq, e.add_rule_eq, hsame]
    · refine ih ?_ hrest
      rw [d.withoutRule_add, e.withoutRule_add, hsame]

/-- **A rule that is replaced later leaves no trace.** -/
theorem ofClauses_replaced (start : Word) {front back : List Clause} {symbol : Symbol}
    {alternatives later : List (Single × Word)} (hlater : .rule symbol later ∈ back) :
    ofClauses start (front ++ .rule symbol alternatives :: back) =
      ofClauses start (front ++ back) := by
  rw [ofClauses, ofClauses, List.foldl_append, List.foldl_append, List.foldl_cons]
  exact foldl_add_eq (withoutRule_add_rule _ symbol alternatives) hlater

end Definition

/-- **The last clause on each thing counts, and nothing before it.** Clauses define a grammar exactly
if what they say in the end is valid. The grammar then has these settings and no others, so other
clauses that say the same in the end define the same grammar. If it is not valid, the error is the
first check that fails, and a rule that is replaced later takes no part in any of this. -/
theorem ofClauses_outcome (start : Word) (clauses : List Clause) :
    ((∃ grammar, Grammar.ofClauses start clauses = .ok grammar) ↔
      (Settings.ofClauses clauses).Valid start) ∧
    (∀ grammar, Grammar.ofClauses start clauses = .ok grammar →
      (Settings.ofClauses clauses).Describes start grammar ∧
      ∀ others, Settings.ofClauses others = Settings.ofClauses clauses →
        Grammar.ofClauses start others = .ok grammar) ∧
    (∀ error, Grammar.ofClauses start clauses = .error error → FirstFault start clauses error) ∧
    ∀ front symbol alternatives back, clauses = front ++ .rule symbol alternatives :: back →
      (∃ later, .rule symbol later ∈ back) →
        Grammar.ofClauses start clauses = Grammar.ofClauses start (front ++ back) := by
  have hvalid (clauses : List Clause) : (∃ grammar, Grammar.ofClauses start clauses = .ok grammar) ↔
      (Settings.ofClauses clauses).Valid start := by
    have hreflects := Definition.reflects_ofClauses start clauses
    constructor
    · rintro ⟨grammar, hgrammar⟩
      exact hreflects.valid (Definition.build_eq_ok_iff.mp hgrammar)
    · intro hvalid
      cases hbuild : Grammar.ofClauses start clauses with
      | ok grammar => exact ⟨grammar, rfl⟩
      | error error => exact absurd hvalid (hreflects.fault hbuild).not_valid
  have hdescribes {clauses : List Clause} {grammar : Grammar}
      (hgrammar : Grammar.ofClauses start clauses = .ok grammar) :
      (Settings.ofClauses clauses).Describes start grammar :=
    (Definition.reflects_ofClauses start clauses).describes (Definition.build_eq_ok_iff.mp hgrammar)
  refine ⟨hvalid clauses, fun grammar hgrammar => ⟨hdescribes hgrammar, fun others hsame => ?_⟩,
    fun error => (Definition.reflects_ofClauses start clauses).fault, ?_⟩
  · obtain ⟨other, hother⟩ := (hvalid others).mpr (hsame ▸ (hvalid clauses).mp ⟨grammar, hgrammar⟩)
    have hequal := (hsame ▸ hdescribes hother).unique (hdescribes hgrammar)
    rw [hother, hequal]
  · rintro front symbol alternatives back rfl ⟨later, hlater⟩
    rw [Grammar.ofClauses, Definition.ofClauses_replaced start hlater]
    rfl

end LSystem
