/-! Values under different names.

The names are part of the type, in order, and a value goes in front of others under a fresh name
only. So a name has one value at most, whatever the members are, and a value is found under a name
exactly if it stands there (`get?_eq_some_iff`). Anything else is made into members by `ofList`, which
keeps the last value of a name. -/
namespace LSystem

/-- Values under these names. -/
inductive Members (α : Type) : List String → Type where
  | nil : Members α []
  | cons {names : List String} (name : String) (value : α) (rest : Members α names)
      (fresh : name ∉ names := by decide) : Members α (name :: names)

namespace Members
variable {α : Type} {names : List String}

/-- Names and values in order. -/
def toList {names : List String} : Members α names → List (String × α)
  | nil => []
  | cons name value rest _ => (name, value) :: rest.toList

theorem map_fst_toList (members : Members α names) : members.toList.map (·.1) = names := by
  induction members with
  | nil => rfl
  | cons name value rest _ ih => exact congrArg (name :: ·) ih

theorem name_mem {members : Members α names} {name : String} {value : α}
    (h : (name, value) ∈ members.toList) : name ∈ names := by
  rw [← members.map_fst_toList]
  exact List.mem_map_of_mem h

/-- The value under a name. -/
def get? {names : List String} : Members α names → String → Option α
  | nil, _ => none
  | cons first value rest _, name => if first = name then some value else rest.get? name

/-- A value is found under a name exactly if it stands there. -/
theorem get?_eq_some_iff {members : Members α names} {name : String} {value : α} :
    members.get? name = some value ↔ (name, value) ∈ members.toList := by
  induction members with
  | nil => simp [get?, toList]
  | cons first held rest fresh ih =>
    rw [get?, toList, List.mem_cons, Prod.mk.injEq]
    by_cases hname : first = name
    · subst hname
      rw [if_pos rfl, Option.some.injEq]
      constructor
      · rintro rfl
        exact .inl ⟨rfl, rfl⟩
      · rintro (⟨-, rfl⟩ | hrest)
        · rfl
        · exact absurd (name_mem hrest) fresh
    · rw [if_neg hname, ih, or_iff_right fun h => hname h.1.symm]

/-- Nothing is found exactly under a name that does not stand there. -/
theorem get?_eq_none_iff {members : Members α names} {name : String} :
    members.get? name = none ↔ name ∉ names := by
  induction members with
  | nil => simp [get?]
  | cons first held rest _ ih =>
    rw [get?, List.mem_cons]
    by_cases hname : first = name
    · simp [hname]
    · rw [if_neg hname, ih, or_iff_right fun h => hname h.symm]

/-- The last value of each name. -/
def ofList : List (String × α) → (names : List String) × Members α names
  | [] => ⟨[], nil⟩
  | (name, value) :: rest =>
    let ⟨names, members⟩ := ofList rest
    if fresh : name ∉ names then ⟨name :: names, cons name value members fresh⟩ else ⟨names, members⟩

/-- A value in front of others counts if none of them has its name. -/
theorem get?_ofList_cons (first : String) (value : α) (rest : List (String × α)) (name : String) :
    (ofList ((first, value) :: rest)).2.get? name =
      ((ofList rest).2.get? name).or (if first = name then some value else none) := by
  rw [ofList]
  generalize ofList rest = made
  obtain ⟨names, members⟩ := made
  dsimp only
  by_cases fresh : first ∉ names
  · rw [dif_pos fresh, get?]
    by_cases hname : first = name
    · subst hname
      rw [if_pos rfl, if_pos rfl, get?_eq_none_iff.mpr fresh, Option.none_or]
    · rw [if_neg hname, if_neg hname, Option.or_none]
  · rw [dif_neg fresh]
    by_cases hname : first = name
    · subst hname
      obtain ⟨held, hheld⟩ := Option.ne_none_iff_exists'.mp (mt get?_eq_none_iff.mp fresh)
      rw [hheld, Option.some_or]
    · rw [if_neg hname, Option.or_none]

example : (ofList [("a", 1), ("b", 2), ("a", 3)]).2.toList = [("b", 2), ("a", 3)] := by decide

theorem get?_ofList_eq_none {members : List (String × α)} {name : String}
    (h : ∀ value, (name, value) ∉ members) : (ofList members).2.get? name = none := by
  induction members with
  | nil => rfl
  | cons member rest ih =>
    obtain ⟨first, held⟩ := member
    have hfirst : first ≠ name := by
      rintro rfl
      exact h held List.mem_cons_self
    rw [get?_ofList_cons, ih fun value hmem => h value (List.mem_cons_of_mem _ hmem), if_neg hfirst,
      Option.none_or]

/-- Values that are given names in order are found under these. -/
theorem get?_ofList_zip {names : List String} (hnodup : names.Nodup) (values : List α) {place : Nat}
    {name : String} (hname : names[place]? = some name) :
    (ofList (names.zip values)).2.get? name = values[place]? := by
  induction names generalizing values place with
  | nil => cases hname
  | cons first rest ih =>
    obtain ⟨hfirst, hrest⟩ := List.nodup_cons.mp hnodup
    cases values with
    | nil => rfl
    | cons value more =>
      rw [List.zip_cons_cons, get?_ofList_cons]
      cases place with
      | zero =>
        cases hname
        rw [get?_ofList_eq_none fun held hheld => hfirst (List.of_mem_zip hheld).1, if_pos rfl]
        rfl
      | succ place =>
        have hne : first ≠ name := fun heq => hfirst (heq ▸ List.mem_of_getElem? hname)
        rw [if_neg hne, Option.or_none]
        exact ih hrest more hname

end Members

end LSystem
