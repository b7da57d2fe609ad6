import Mathlib

/-!
# Ordered maps

An ordered map is a list of entries whose keys are strictly increasing for a
strict total order `lt`, the comparator of the container.  It is the list that
an iteration over the container visits: the first entry has the least key.
`insert` overwrites the value of a key or adds it at its place, and `erase`
removes a key if it is there.
-/

namespace CryptoHft
namespace Lib

universe u v

/-- The entries of an ordered container, in the order of its comparator. -/
structure OrderedMap (κ : Type u) (ν : Type v) (lt : κ → κ → Prop) where
  entries : List (κ × ν)
  sorted : entries.Pairwise (fun a b => lt a.1 b.1)

namespace OrderedMap

@[ext] theorem ext
    {κ : Type u} {ν : Type v} {lt : κ → κ → Prop}
    {m m' : OrderedMap κ ν lt}
    (h : m.entries = m'.entries) :
    m = m' := by
  cases m
  cases m'
  cases h
  rfl

section Operations

variable {κ : Type u} {ν : Type v} {lt : κ → κ → Prop}

def empty : OrderedMap κ ν lt :=
  ⟨[], .nil⟩

variable [DecidableRel lt]

/-- The value of a key is overwritten, or the key is added at its place. -/
def insert [IsTrans κ lt] (m : OrderedMap κ ν lt) (k : κ) (v : ν) : OrderedMap κ ν lt where
  entries := m.entries.filter (fun e => lt e.1 k) ++
    (k, v) :: m.entries.filter (fun e => lt k e.1)
  sorted := by
    rw [List.pairwise_append, List.pairwise_cons]
    refine ⟨m.sorted.filter _, ⟨?_, m.sorted.filter _⟩, ?_⟩
    · intro e he
      simpa using (List.mem_filter.mp he).2
    · intro a ha b hb
      have hak : lt a.1 k := by
        simpa using (List.mem_filter.mp ha).2
      rcases List.mem_cons.mp hb with rfl | hb
      · exact hak
      · have hkb : lt k b.1 := by
          simpa using (List.mem_filter.mp hb).2
        exact IsTrans.trans _ _ _ hak hkb

/-- The key is removed if it is there. -/
def erase (m : OrderedMap κ ν lt) (k : κ) : OrderedMap κ ν lt where
  entries := m.entries.filter (fun e => lt e.1 k ∨ lt k e.1)
  sorted := m.sorted.filter _

end Operations

section Membership

variable {κ : Type u} {ν : Type v} {lt : κ → κ → Prop}

@[simp] theorem entries_empty : (empty : OrderedMap κ ν lt).entries = [] :=
  rfl

theorem lt_or_gt_iff_ne
    (lt : κ → κ → Prop) [IsStrictTotalOrder κ lt]
    (a b : κ) :
    (lt a b ∨ lt b a) ↔ a ≠ b := by
  constructor
  · rintro (h | h) rfl
    · exact irrefl a h
    · exact irrefl a h
  · intro hne
    rcases trichotomous_of lt a b with h | h | h
    · exact .inl h
    · exact absurd h hne
    · exact .inr h

variable [IsStrictTotalOrder κ lt] [DecidableRel lt]

theorem mem_insert
    (m : OrderedMap κ ν lt)
    (k : κ)
    (v : ν)
    (e : κ × ν) :
    e ∈ (m.insert k v).entries ↔ e = (k, v) ∨ (e.1 ≠ k ∧ e ∈ m.entries) := by
  rw [← lt_or_gt_iff_ne lt]
  simp only [insert, List.mem_append, List.mem_cons, List.mem_filter, decide_eq_true_eq]
  tauto

theorem mem_erase
    (m : OrderedMap κ ν lt)
    (k : κ)
    (e : κ × ν) :
    e ∈ (m.erase k).entries ↔ e.1 ≠ k ∧ e ∈ m.entries := by
  rw [← lt_or_gt_iff_ne lt]
  simp only [erase, List.mem_filter, decide_eq_true_eq]
  tauto

/-- A key after all others is added at the end. -/
theorem insert_of_forall_lt
    {m : OrderedMap κ ν lt}
    {k : κ}
    (h : ∀ e ∈ m.entries, lt e.1 k)
    (v : ν) :
    (m.insert k v).entries = m.entries ++ [(k, v)] := by
  have hbefore : m.entries.filter (fun e => lt e.1 k) = m.entries := by
    rw [List.filter_eq_self]
    intro e he
    simpa using h e he
  have hafter : m.entries.filter (fun e => lt k e.1) = [] := by
    rw [List.filter_eq_nil_iff]
    intro e he hlt
    exact asymm (h e he) (of_decide_eq_true hlt)
  simp only [insert, hbefore, hafter]

end Membership

section Ends

variable {κ : Type u} {ν : Type v} {lt : κ → κ → Prop}

/-- The first entry has the least key. -/
theorem lt_of_mem_tail
    {m : OrderedMap κ ν lt}
    {e₀ e : κ × ν}
    {rest : List (κ × ν)}
    (hfirst : m.entries = e₀ :: rest)
    (he : e ∈ rest) :
    lt e₀.1 e.1 := by
  have hsorted := m.sorted
  rw [hfirst] at hsorted
  exact (List.pairwise_cons.mp hsorted).1 e he

end Ends

end OrderedMap

end Lib
end CryptoHft
