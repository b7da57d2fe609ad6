import CryptoHft.Lib.Json

/-!
# JSON values up to the order of members

The members of an object have no order.  `Json.Same` relates two values that are equal
except for it: objects with the same keys and the same values under each key.  What a
program computes from the sorted keys of an object and the values under them is the same
for both.
-/

namespace CryptoHft
namespace Lib
namespace Json

variable {R : Type}

/-- Equal values, up to the order of the members of objects. -/
inductive Same : Json R → Json R → Prop
  | refl (v : Json R) : Same v v
  | array
      {items items' : List (Json R)}
      (hlength : items.length = items'.length)
      (h : ∀ (i : Nat) v w, items[i]? = some v → items'[i]? = some w → Same v w) :
      Same (.array items) (.array items')
  | object
      {fields fields' : List (String × Json R)}
      (hkeys : ∀ key, (fields.lookup key).isSome = (fields'.lookup key).isSome)
      (h : ∀ key v w, fields.lookup key = some v → fields'.lookup key = some w → Same v w) :
      Same (.object fields) (.object fields')

/-- The object with another value under a key that it has. -/
def setField (j : Json R) (key : String) (value : Json R) : Json R :=
  match j with
  | .object fields =>
      .object (fields.map (fun (name, old) => (name, if name = key then value else old)))
  | _ => j

/-- The keys of an object, each once and in increasing order. -/
def sortedKeys (fields : List (String × Json R)) : List String :=
  (fields.map Prod.fst).dedup.insertionSort (· ≤ ·)

theorem mem_sortedKeys
    {fields : List (String × Json R)} {key : String} :
    key ∈ sortedKeys fields ↔ (fields.lookup key).isSome := by
  rw [sortedKeys, List.mem_insertionSort, List.mem_dedup, List.lookup_isSome_iff]
  constructor
  · intro h
    obtain ⟨p, hp, rfl⟩ := List.mem_map.mp h
    exact ⟨p, hp, beq_self_eq_true _⟩
  · rintro ⟨p, hp, hkey⟩
    rw [eq_of_beq hkey]
    exact List.mem_map_of_mem hp

theorem sortedKeys_congr
    {fields fields' : List (String × Json R)}
    (h : ∀ key, (fields.lookup key).isSome = (fields'.lookup key).isSome) :
    sortedKeys fields = sortedKeys fields' := by
  have hmem : ∀ key, key ∈ sortedKeys fields ↔ key ∈ sortedKeys fields' := by
    intro key
    rw [mem_sortedKeys, mem_sortedKeys, h]
  have hnodup : ∀ fields : List (String × Json R), (sortedKeys fields).Nodup := fun fields =>
    (List.perm_insertionSort _ _).nodup_iff.mpr (List.nodup_dedup _)
  exact ((List.perm_ext_iff_of_nodup (hnodup _) (hnodup _)).mpr hmem).eq_of_pairwise'
    (List.pairwise_insertionSort _ _) (List.pairwise_insertionSort _ _)

theorem both_or_neither
    {α : Type} {o o' : Option α}
    (h : o.isSome = o'.isSome) :
    (o = none ∧ o' = none) ∨ ∃ x y, o = some x ∧ o' = some y := by
  cases o with
  | none => exact .inl ⟨rfl, Option.not_isSome_iff_eq_none.mp (by rw [← h]; exact Bool.noConfusion)⟩
  | some x =>
      obtain ⟨y, hy⟩ := Option.isSome_iff_exists.mp h.symm
      exact .inr ⟨x, y, rfl, hy⟩

theorem lookup_eq_some_iff_mem
    {fields : List (String × Json R)}
    (hdistinct : (fields.map Prod.fst).Nodup)
    {key : String} {v : Json R} :
    fields.lookup key = some v ↔ (key, v) ∈ fields := by
  induction fields with
  | nil =>
      simp
  | cons p rest ih =>
      obtain ⟨name, value⟩ := p
      obtain ⟨hfresh, hrest⟩ := List.nodup_cons.mp hdistinct
      rcases eq_or_ne key name with rfl | hne
      · rw [List.lookup_cons_self, List.mem_cons, Option.some.injEq, Prod.mk.injEq]
        constructor
        · rintro rfl
          exact .inl ⟨rfl, rfl⟩
        · rintro (⟨-, rfl⟩ | hmem)
          · rfl
          · exact absurd (List.mem_map_of_mem hmem) hfresh
      · rw [List.lookup_cons, beq_eq_false_iff_ne.mpr hne, List.mem_cons, Prod.mk.injEq]
        exact (ih hrest).trans ⟨.inr, fun h => h.resolve_left fun heq => hne heq.1⟩

namespace Same

variable {v w : Json R}

/-- The members of an object in another order. -/
theorem of_perm
    {fields fields' : List (String × Json R)}
    (hdistinct : (fields.map Prod.fst).Nodup)
    (hperm : fields.Perm fields') :
    Same (.object fields) (.object fields') := by
  have hdistinct' := (hperm.map Prod.fst).nodup_iff.mp hdistinct
  have hlookup : ∀ key, fields.lookup key = fields'.lookup key := by
    intro key
    refine Option.ext fun v => ?_
    rw [lookup_eq_some_iff_mem hdistinct, lookup_eq_some_iff_mem hdistinct', hperm.mem_iff]
  refine .object (fun key => by rw [hlookup]) ?_
  intro key v w hv hw
  rw [hlookup, hw, Option.some.injEq] at hv
  exact hv ▸ .refl w

/-- The value under a key is the same too. -/
theorem find
    (h : Same v w)
    (key : String) :
    (v.find key = none ∧ w.find key = none) ∨
      ∃ x y, v.find key = some x ∧ w.find key = some y ∧ Same x y := by
  cases h with
  | refl =>
      cases hfind : v.find key with
      | none => exact .inl ⟨rfl, rfl⟩
      | some x => exact .inr ⟨x, x, rfl, rfl, .refl x⟩
  | array => exact .inl ⟨rfl, rfl⟩
  | @object fields fields' hkeys h =>
      rcases both_or_neither (hkeys key) with hnone | ⟨x, y, hx, hy⟩
      · exact .inl hnone
      · exact .inr ⟨x, y, hx, hy, h key x y hx hy⟩

theorem find_eq_some
    (h : Same v w)
    {key : String} {x : Json R}
    (hv : v.find key = some x) :
    ∃ y, w.find key = some y ∧ Same x y := by
  rcases h.find key with ⟨hnone, -⟩ | ⟨x', y, hx, hy, hsame⟩
  · rw [hv] at hnone
    cases hnone
  · rw [hv, Option.some.injEq] at hx
    exact ⟨y, hy, hx ▸ hsame⟩

theorem find_string
    (h : Same v w)
    {key : String} {s : Bytes}
    (hv : v.find key = some (.string s)) :
    w.find key = some (.string s) := by
  obtain ⟨y, hy, hsame⟩ := h.find_eq_some hv
  cases hsame
  exact hy

theorem find_integer
    (h : Same v w)
    {key : String} {i : JsonInt}
    (hv : v.find key = some (.integer i)) :
    w.find key = some (.integer i) := by
  obtain ⟨y, hy, hsame⟩ := h.find_eq_some hv
  cases hsame
  exact hy

end Same

/-- What is put together from the items of an array. -/
theorem flatMap_congr_of_same
    {β : Type} {f : Json R → List β} {items items' : List (Json R)}
    (hlength : items.length = items'.length)
    (h : ∀ (i : Nat) v w, items[i]? = some v → items'[i]? = some w → f v = f w) :
    items.flatMap f = items'.flatMap f := by
  have hmap : items.map f = items'.map f := by
    refine List.ext_getElem (by simp [hlength]) ?_
    intro i hi hi'
    rw [List.length_map] at hi hi'
    rw [List.getElem_map, List.getElem_map]
    exact h i _ _ (List.getElem?_eq_getElem hi) (List.getElem?_eq_getElem hi')
  rw [List.flatMap_def, List.flatMap_def, hmap]

/-- What is put together from the sorted keys of an object and the values under them. -/
theorem sortedKeys_flatMap_congr
    {β : Type} {f : String → Option (Json R) → List β} {fields fields' : List (String × Json R)}
    (hkeys : ∀ key, (fields.lookup key).isSome = (fields'.lookup key).isSome)
    (h : ∀ key v w, fields.lookup key = some v → fields'.lookup key = some w →
      f key (some v) = f key (some w)) :
    (sortedKeys fields).flatMap (fun key => f key (fields.lookup key)) =
      (sortedKeys fields').flatMap (fun key => f key (fields'.lookup key)) := by
  rw [sortedKeys_congr hkeys]
  refine List.flatMap_congr fun key _ => ?_
  rcases both_or_neither (hkeys key) with ⟨hv, hw⟩ | ⟨v, w, hv, hw⟩
  · rw [hv, hw]
  · rw [hv, hw]
    exact h key v w hv hw

end Json
end Lib
end CryptoHft
