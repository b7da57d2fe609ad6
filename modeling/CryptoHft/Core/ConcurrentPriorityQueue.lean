import CryptoHft.Core.PriorityQueue

/-!
# `PriorityTradeQueue` with a producer and a consumer at work

The rings of `include/core/trade_queue.hpp` are for one producer and one consumer
each, and so is the queue over them.  A push is a push on the ring of its level; a
pop makes the accesses of one ring after the other, from level 0 on, until a ring
gives a trade.  The two sides may interleave in any way, so that the rings a pop has
passed may fill again behind it.

What was waiting when the call began is served by priority all the same: a trade is
taken from level `l` only if the more urgent levels were empty then, and it is the
oldest one of its level.  A trade that is pushed during the call may have to wait,
even for a less urgent one that was pushed after it.

`waiting` records what was queued when the pop in progress was called; `pushed` and
`popped` record what the rings took and gave.  No step reads them.
-/

namespace CryptoHft
namespace Core

open Lib

/-- The points of `PriorityTradeQueue::try_push`: the ring it is in decides the rest. -/
inductive PriorityPushPc
  | idle
  | pushing (level : Fin 4)
  | returned (result : Bool)

/-- The points of `PriorityTradeQueue::try_pop`. -/
inductive PriorityPopPc (R : Type)
  | idle
  | scanning (level : Fin 4)
  | returned (result : Option (Option (Trade R)))

structure PriorityRun (R : Type) where
  rings : Fin 4 → SpscRun (Trade R)
  producer : PriorityPushPc
  consumer : PriorityPopPc R
  waiting : Fin 4 → List (Trade R)
  pushed : List (Trade R)
  popped : List (Option (Trade R))

inductive PriorityAction (R : Type)
  | callPush (trade : Trade R)
  | push
  | callPop
  | pop

/-- The trade of a push in progress. -/
def SpscPushPc.trade {α : Type} : SpscPushPc α → Option α
  | .idle => none
  | .loadTail trade => some trade
  | .loadHead trade _ => some trade
  | .writeSlot trade _ _ => some trade
  | .storeTail trade _ => some trade
  | .returned _ => none

namespace PriorityRun

open PriorityTradeQueue (levelOf ofLevel)

variable {R : Type}

def create : PriorityRun R where
  rings _ := .create
  producer := .idle
  consumer := .idle
  waiting _ := []
  pushed := []
  popped := []

/-- One access to the ring of a level, and what it adds to the records. -/
def inRing (cap : LevelCapacity) (s : PriorityRun R) (level : Fin 4)
    (a : SpscAction (Trade R)) : Option (PriorityRun R) :=
  (stepAt (SpscRun.step cap.toCapacity) s.rings level a).map (fun rings =>
    { s with
      rings := rings
      pushed := s.pushed ++ (rings level).pushed.drop (s.rings level).pushed.length
      popped := s.popped ++ (rings level).popped.drop (s.rings level).popped.length })

/-- The next access of `try_push`. -/
def pushStep (cap : LevelCapacity) (s : PriorityRun R) : Option (PriorityRun R) :=
  match s.producer with
  | .idle => none
  | .pushing level =>
      match (s.rings level).producer with
      | .returned result =>
          (s.inRing cap level .push).map (fun t => { t with producer := .returned result })
      | _ => s.inRing cap level .push
  | .returned _ => some { s with producer := .idle }

/-- The next access of `try_pop`. -/
def popStep (cap : LevelCapacity) (s : PriorityRun R) : Option (PriorityRun R) :=
  match s.consumer with
  | .idle => none
  | .scanning level =>
      match (s.rings level).consumer with
      | .returned (some trade) =>
          (s.inRing cap level .pop).map (fun t => { t with consumer := .returned (some trade) })
      | .returned none =>
          if h : level.val + 1 < 4 then
            (s.inRing cap level .pop).bind (fun t =>
              (t.inRing cap ⟨level.val + 1, h⟩ .callPop).map (fun u =>
                { u with consumer := .scanning ⟨level.val + 1, h⟩ }))
          else
            (s.inRing cap level .pop).map (fun t => { t with consumer := .returned none })
      | _ => s.inRing cap level .pop
  | .returned _ => some { s with consumer := .idle }

def step (cap : LevelCapacity) (s : PriorityRun R) : PriorityAction R → Option (PriorityRun R)
  | .callPush trade =>
      match s.producer with
      | .idle =>
          (s.inRing cap (priorityToLevel trade.priority) (.callPush trade)).map (fun t =>
            { t with producer := .pushing (priorityToLevel trade.priority) })
      | _ => none
  | .push => s.pushStep cap
  | .callPop =>
      match s.consumer with
      | .idle =>
          (s.inRing cap mostUrgentLevel .callPop).map (fun t =>
            { t with
              consumer := .scanning mostUrgentLevel
              waiting := fun l => (s.rings l).queued })
      | _ => none
  | .pop => s.popStep cap

end PriorityRun

namespace SpscRun

variable {α : Type} {cap : Capacity} {s t : SpscRun α}

/-- What an access of `try_push` may change. -/
inductive PushEffect (s t : SpscRun α) : Prop
  | moved
      (pushed : t.pushed = s.pushed)
      (trade : ∀ x, t.producer.trade = some x → s.producer.trade = some x)
  | stored (x : α)
      (pushing : s.producer.trade = some x)
      (pushed : t.pushed = s.pushed ++ [x])
      (trade : t.producer.trade = none)

theorem pushEffect
    (hstep : s.pushStep cap = some t) :
    (t.consumer = s.consumer ∧ t.popped = s.popped) ∧ PushEffect s t := by
  unfold SpscRun.pushStep at hstep
  cases hpc : s.producer with
  | idle =>
      simp [hpc] at hstep
  | loadTail trade | writeSlot trade tail nextTail =>
      simp only [hpc, Option.some.injEq] at hstep
      subst hstep
      exact ⟨⟨rfl, rfl⟩, .moved rfl (fun x hx => by rw [hpc]; exact hx)⟩
  | loadHead trade tail =>
      simp only [hpc] at hstep
      split at hstep
      · cases hstep
        exact ⟨⟨rfl, rfl⟩, .moved rfl (fun x hx => by cases hx)⟩
      · cases hstep
        exact ⟨⟨rfl, rfl⟩, .moved rfl (fun x hx => by rw [hpc]; exact hx)⟩
  | storeTail trade nextTail =>
      simp only [hpc, Option.some.injEq] at hstep
      subst hstep
      exact ⟨⟨rfl, rfl⟩, .stored trade (by rw [hpc]; rfl) rfl rfl⟩
  | returned result =>
      simp only [hpc, Option.some.injEq] at hstep
      subst hstep
      exact ⟨⟨rfl, rfl⟩, .moved rfl (fun x hx => by cases hx)⟩

theorem popStep_keeps
    (hstep : s.popStep cap = some t) :
    t.producer = s.producer ∧ t.pushed = s.pushed ∧ s.popped <+: t.popped := by
  unfold SpscRun.popStep at hstep
  cases hpc : s.consumer with
  | idle =>
      simp [hpc] at hstep
  | loadHead peek | returned result =>
      simp only [hpc, Option.some.injEq] at hstep
      subst hstep
      exact ⟨rfl, rfl, List.prefix_rfl⟩
  | loadTail peek head | readSlot peek head =>
      simp only [hpc] at hstep
      split at hstep <;> cases hstep <;> exact ⟨rfl, rfl, List.prefix_rfl⟩
  | storeHead head trade =>
      simp only [hpc, Option.some.injEq] at hstep
      subst hstep
      exact ⟨rfl, rfl, List.prefix_append _ _⟩

/-- The queue of a ring only grows while the producer is at work. -/
theorem queued_prefix_of_pushed
    (h : Inv cap s)
    (hpushed : s.pushed <+: t.pushed)
    (hpopped : t.popped = s.popped) :
    s.queued <+: t.queued := by
  obtain ⟨added, hadded⟩ := hpushed
  rw [queued, queued, hpopped, ← hadded,
    List.drop_append_of_le_length h.length_popped_le]
  exact List.prefix_append _ _

end SpscRun

namespace PriorityRun

open PriorityTradeQueue (levelOf ofLevel)

variable {R : Type} {cap : LevelCapacity}

/-- What was popped from the ring of a level. -/
def ofPopped (popped : List (Option (Trade R))) (l : Fin 4) : List (Option (Trade R)) :=
  popped.filter (fun trade => trade.map levelOf = some l)

/-- The ring of a level works, and holds and takes trades of this level only. -/
structure LevelOk (cap : LevelCapacity) (l : Fin 4) (ring : SpscRun (Trade R)) : Prop where
  inv : ring.Inv cap.toCapacity
  pushed : ∀ trade ∈ ring.pushed, levelOf trade = l
  pushing : ∀ trade, ring.producer.trade = some trade → levelOf trade = l

/-- The records agree with those of the rings. -/
structure Recorded (rings : Fin 4 → SpscRun (Trade R)) (pushed : List (Trade R))
    (popped : List (Option (Trade R))) : Prop where
  pushed : ∀ l, ofLevel pushed l = (rings l).pushed
  popped : ∀ l, ofPopped popped l = (rings l).popped

section Rings

variable {s t : PriorityRun R} {level : Fin 4} {a : SpscAction (Trade R)}

theorem LevelOk.popped
    {ring : SpscRun (Trade R)}
    (h : LevelOk cap level ring) :
    ∀ trade ∈ ring.popped, trade.map levelOf = some level := by
  intro trade hmem
  have hmap : trade ∈ ring.pushed.map some := by
    rw [h.inv.sequence]
    exact List.mem_append_left _ hmem
  obtain ⟨x, hx, rfl⟩ := List.mem_map.mp hmap
  rw [Option.map_some, h.pushed x hx]

theorem LevelOk.queued
    {ring : SpscRun (Trade R)}
    (h : LevelOk cap level ring) :
    ∀ trade ∈ ring.queued, levelOf trade = level :=
  fun trade hmem => h.pushed trade (List.drop_subset _ _ hmem)

theorem pushed_prefix_of_step
    {ring ring' : SpscRun (Trade R)}
    (hstep : ring.step cap.toCapacity a = some ring') :
    ring.pushed <+: ring'.pushed ∧ ring.popped <+: ring'.popped := by
  cases a with
  | callPush | callPop | callPeek =>
      simp only [SpscRun.step] at hstep
      split at hstep
      · cases hstep
        exact ⟨List.prefix_rfl, List.prefix_rfl⟩
      · cases hstep
  | push =>
      obtain ⟨⟨-, hpopped⟩, heffect⟩ := SpscRun.pushEffect hstep
      refine ⟨?_, hpopped ▸ List.prefix_rfl⟩
      cases heffect with
      | moved hpushed _ => exact hpushed ▸ List.prefix_rfl
      | stored x _ hpushed _ => exact hpushed ▸ List.prefix_append _ _
  | pop =>
      obtain ⟨-, hpushed, hpopped⟩ := SpscRun.popStep_keeps hstep
      exact ⟨hpushed ▸ List.prefix_rfl, hpopped⟩

theorem LevelOk.step
    {ring ring' : SpscRun (Trade R)}
    (h : LevelOk cap level ring)
    (hlevel : ∀ trade, a = .callPush trade → levelOf trade = level)
    (hstep : ring.step cap.toCapacity a = some ring') :
    LevelOk cap level ring' := by
  have hinv := h.inv.step hstep
  cases a with
  | callPush trade =>
      simp only [SpscRun.step] at hstep
      split at hstep
      · cases hstep
        refine ⟨hinv, h.pushed, ?_⟩
        intro x hx
        exact hlevel x (congrArg _ (Option.some.inj hx))
      · cases hstep
  | callPop | callPeek =>
      simp only [SpscRun.step] at hstep
      split at hstep
      · cases hstep
        exact ⟨hinv, h.pushed, h.pushing⟩
      · cases hstep
  | push =>
      obtain ⟨-, heffect⟩ := SpscRun.pushEffect hstep
      cases heffect with
      | moved hpushed htrade =>
          exact ⟨hinv, hpushed ▸ h.pushed, fun x hx => h.pushing x (htrade x hx)⟩
      | stored x hpushing hpushed htrade =>
          refine ⟨hinv, ?_, ?_⟩
          · intro y hy
            rw [hpushed] at hy
            rcases List.mem_append.mp hy with hy | hy
            · exact h.pushed y hy
            · rw [List.mem_singleton.mp hy]
              exact h.pushing x hpushing
          · intro y hy
            rw [htrade] at hy
            cases hy
  | pop =>
      obtain ⟨hproducer, hpushed, -⟩ := SpscRun.popStep_keeps hstep
      exact ⟨hinv, hpushed ▸ h.pushed, hproducer ▸ h.pushing⟩

theorem inRing_eq_some :
    s.inRing cap level a = some t ↔
      ∃ ring, (s.rings level).step cap.toCapacity a = some ring ∧
        { s with
          rings := Function.update s.rings level ring
          pushed := s.pushed ++ ring.pushed.drop (s.rings level).pushed.length
          popped := s.popped ++ ring.popped.drop (s.rings level).popped.length } = t := by
  simp only [inRing, stepAt, Option.map_map, Option.map_eq_some_iff, Function.comp_apply,
    Function.update_self]

/-- What is added at the end of a list whose members have a property. -/
theorem drop_of_prefix
    {α : Type} {P : α → Prop} {before after : List α}
    (hgrown : before <+: after)
    (hall : ∀ x ∈ after, P x) :
    before ++ after.drop before.length = after ∧ ∀ x ∈ after.drop before.length, P x := by
  obtain ⟨added, rfl⟩ := hgrown
  rw [List.drop_left]
  exact ⟨rfl, fun x hx => hall x (List.mem_append_right _ hx)⟩

theorem filter_append_eq_update
    {α : Type} (level : Fin 4) {p : Fin 4 → α → Bool} {all added : List α} {own : Fin 4 → List α}
    (hown : ∀ l, all.filter (p l) = own l)
    (hadded : ∀ x ∈ added, ∀ l, p l x = decide (l = level))
    (l : Fin 4) :
    (all ++ added).filter (p l) = Function.update own level (own level ++ added) l := by
  rw [List.filter_append, hown]
  rcases eq_or_ne l level with rfl | hne
  · rw [Function.update_self, List.filter_eq_self.mpr]
    intro x hx
    rw [hadded x hx, decide_eq_true rfl]
  · rw [Function.update_of_ne hne, List.filter_eq_nil_iff.mpr, List.append_nil]
    intro x hx
    rw [hadded x hx, decide_eq_false hne]
    exact Bool.false_ne_true

theorem inRing_keeps
    (h : ∀ l, LevelOk cap l (s.rings l))
    (hrecorded : Recorded s.rings s.pushed s.popped)
    (hlevel : ∀ trade, a = .callPush trade → levelOf trade = level)
    (hstep : s.inRing cap level a = some t) :
    (∀ l, LevelOk cap l (t.rings l)) ∧ Recorded t.rings t.pushed t.popped := by
  obtain ⟨ring, hring, rfl⟩ := inRing_eq_some.mp hstep
  have hnext := (h level).step hlevel hring
  obtain ⟨hpushed, hpopped⟩ := pushed_prefix_of_step hring
  obtain ⟨hpushed, hlevels⟩ := drop_of_prefix hpushed hnext.pushed
  obtain ⟨hpopped, hlevels'⟩ := drop_of_prefix hpopped hnext.popped
  refine ⟨?_, ?_, ?_⟩
  · exact (Function.forall_update_iff s.rings (LevelOk cap)).mpr ⟨hnext, fun l _ => h l⟩
  · intro l
    rw [ofLevel, filter_append_eq_update level hrecorded.pushed
      (fun x hx l => by rw [hlevels x hx, decide_eq_decide, eq_comm]), hpushed]
    exact (Function.apply_update (fun _ ring => ring.pushed) s.rings level ring l).symm
  · intro l
    rw [ofPopped, filter_append_eq_update level hrecorded.popped
      (fun x hx l => by rw [hlevels' x hx, decide_eq_decide, Option.some.injEq, eq_comm]), hpopped]
    exact (Function.apply_update (fun _ ring => ring.popped) s.rings level ring l).symm

end Rings

/-- What a pop knows about what was waiting, at its points in the ring of a level. -/
def RingScan (level : Fin 4) (waiting : List (Trade R)) (ring : SpscRun (Trade R)) : Prop :=
  match ring.consumer with
  | .loadHead false => waiting <+: ring.queued
  | .loadTail false _ => waiting <+: ring.queued
  | .readSlot false _ => waiting <+: ring.queued
  | .storeHead _ _ => waiting <+: ring.queued
  | .returned none => waiting = []
  | .returned (some trade) =>
      ∃ x, trade = some x ∧ levelOf x = level ∧ ∀ y ∈ waiting.head?, y = x
  | _ => False

/-- What a pop knows about what was waiting when it was called. -/
def ScanOk (s : PriorityRun R) : Prop :=
  match s.consumer with
  | .idle => True
  | .scanning level =>
      (∀ l < level, s.waiting l = []) ∧ RingScan level (s.waiting level) (s.rings level) ∧
        ∀ l, level < l → s.waiting l <+: (s.rings l).queued
  | .returned none => ∀ l, s.waiting l = []
  | .returned (some trade) =>
      ∃ x, trade = some x ∧ (∀ l < levelOf x, s.waiting l = []) ∧
        ∀ y ∈ (s.waiting (levelOf x)).head?, y = x

structure Inv (cap : LevelCapacity) (s : PriorityRun R) : Prop where
  levels : ∀ l, LevelOk cap l (s.rings l)
  recorded : Recorded s.rings s.pushed s.popped
  scan : s.ScanOk

section Scan

variable {s t : PriorityRun R} {level : Fin 4} {a : SpscAction (Trade R)}
  {ring ring' : SpscRun (Trade R)} {waiting : List (Trade R)}

theorem RingScan.of_prefix
    (h : RingScan level waiting ring)
    (hconsumer : ring'.consumer = ring.consumer)
    (hqueued : ring.queued <+: ring'.queued) :
    RingScan level waiting ring' := by
  unfold RingScan at h ⊢
  rw [hconsumer]
  revert h
  split <;> first
    | exact fun h => List.IsPrefix.trans h hqueued
    | exact id

/-- An access inside the ring, up to the return of its `try_pop`. -/
theorem RingScan.popStep
    (hring : LevelOk cap level ring)
    (h : RingScan level waiting ring)
    (hinside : ∀ result, ring.consumer ≠ .returned result)
    (hstep : ring.popStep cap.toCapacity = some ring') :
    RingScan level waiting ring' := by
  have hconsumer := hring.inv.consumer
  unfold RingScan at h
  unfold SpscRun.popStep at hstep
  cases hpc : ring.consumer with
  | idle =>
      simp [hpc] at hstep
  | loadHead peek =>
      cases peek with
      | true => simp [hpc] at h
      | false =>
          simp only [hpc, Option.some.injEq] at h hstep
          subst hstep
          exact h
  | loadTail peek head =>
      cases peek with
      | true => simp [hpc] at h
      | false =>
          simp only [hpc] at h hstep
          rw [hpc] at hconsumer
          have hhead : head = ring.queue.head := hconsumer
          split at hstep
          · -- the ring is empty, and was when the pop was called
            rename_i hempty
            cases hstep
            rw [hhead, hring.inv.ring.head_eq_tail_iff] at hempty
            rw [hempty] at h
            exact List.prefix_nil.mp h
          · cases hstep
            exact h
  | readSlot peek head =>
      cases peek with
      | true => simp [hpc] at h
      | false =>
          simp only [hpc, Bool.false_eq_true, if_false, Option.some.injEq] at h hstep
          subst hstep
          exact h
  | storeHead head trade =>
      simp only [hpc, Option.some.injEq] at h hstep
      subst hstep
      rw [hpc] at hconsumer
      obtain ⟨-, x, rest, hfront, rfl⟩ := hconsumer
      refine ⟨x, rfl, hring.queued x (by rw [hfront]; exact List.mem_cons_self ..), ?_⟩
      intro y hy
      rw [hfront] at h
      obtain ⟨later, hlater⟩ := h
      cases waiting with
      | nil => cases hy
      | cons z waiting =>
          cases hy
          exact (List.cons.inj hlater).1
  | returned result =>
      exact absurd hpc (hinside result)

/-- The producer at work, in the ring of any level. -/
theorem ScanOk.of_pushing
    (h : s.ScanOk)
    (hconsumer : t.consumer = s.consumer)
    (hwaiting : t.waiting = s.waiting)
    (hrings : ∀ l, (t.rings l).consumer = (s.rings l).consumer ∧
      (s.rings l).queued <+: (t.rings l).queued) :
    t.ScanOk := by
  unfold ScanOk at h ⊢
  rw [hconsumer, hwaiting]
  cases hpc : s.consumer with
  | idle =>
      trivial
  | scanning level =>
      rw [hpc] at h
      obtain ⟨hempty, hscan, hlater⟩ := h
      exact ⟨hempty, hscan.of_prefix (hrings level).1 (hrings level).2,
        fun l hl => (hlater l hl).trans (hrings l).2⟩
  | returned result =>
      rw [hpc] at h
      cases result with
      | none => exact h
      | some trade => exact h

theorem inv_create
    (cap : LevelCapacity) :
    Inv cap (create : PriorityRun R) where
  levels l := ⟨SpscRun.inv_create _, fun _ hmem => absurd hmem List.not_mem_nil,
    fun _ htrade => by cases htrade⟩
  recorded := ⟨fun _ => rfl, fun _ => rfl⟩
  scan := trivial

/-- The rings after one access, and what an access of the producer leaves alone. -/
theorem inRing_push
    (h : s.Inv cap)
    (ha : a = .push ∨ ∃ trade, a = .callPush trade)
    (hstep : s.inRing cap level a = some t) :
    (t.consumer = s.consumer ∧ t.waiting = s.waiting) ∧
      ∀ l, (t.rings l).consumer = (s.rings l).consumer ∧
        (s.rings l).queued <+: (t.rings l).queued := by
  obtain ⟨ring, hring, rfl⟩ := inRing_eq_some.mp hstep
  refine ⟨⟨rfl, rfl⟩, ?_⟩
  intro l
  rcases eq_or_ne l level with rfl | hne
  · have hpushed := (pushed_prefix_of_step hring).1
    have hkept : ring.consumer = (s.rings l).consumer ∧ ring.popped = (s.rings l).popped := by
      rcases ha with rfl | ⟨trade, rfl⟩
      · exact (SpscRun.pushEffect hring).1
      · simp only [SpscRun.step] at hring
        split at hring
        · cases hring
          exact ⟨rfl, rfl⟩
        · cases hring
    simp only [Function.update_self]
    exact ⟨hkept.1, SpscRun.queued_prefix_of_pushed (h.levels l).inv hpushed hkept.2⟩
  · have hring : Function.update s.rings level ring l = s.rings l := Function.update_of_ne hne _ _
    dsimp only
    rw [hring]
    exact ⟨rfl, List.prefix_rfl⟩

theorem Inv.callPush
    (h : s.Inv cap)
    {trade : Trade R}
    (hstep : s.inRing cap (levelOf trade) (.callPush trade) = some t) :
    t.Inv cap := by
  obtain ⟨hlevels, hrecorded⟩ := inRing_keeps h.levels h.recorded
    (fun x hx => by cases hx; rfl) hstep
  obtain ⟨⟨hconsumer, hwaiting⟩, hrings⟩ := inRing_push h (.inr ⟨trade, rfl⟩) hstep
  exact ⟨hlevels, hrecorded, h.scan.of_pushing hconsumer hwaiting hrings⟩

theorem Inv.push
    (h : s.Inv cap)
    (hstep : s.inRing cap level .push = some t) :
    t.Inv cap := by
  obtain ⟨hlevels, hrecorded⟩ := inRing_keeps h.levels h.recorded (fun x hx => by cases hx) hstep
  obtain ⟨⟨hconsumer, hwaiting⟩, hrings⟩ := inRing_push h (.inl rfl) hstep
  exact ⟨hlevels, hrecorded, h.scan.of_pushing hconsumer hwaiting hrings⟩

theorem Inv.pushStep
    (h : s.Inv cap)
    (hstep : s.pushStep cap = some t) :
    t.Inv cap := by
  unfold PriorityRun.pushStep at hstep
  split at hstep
  · cases hstep
  · split at hstep
    · obtain ⟨u, hu, rfl⟩ := Option.map_eq_some_iff.mp hstep
      have hnext := h.push hu
      exact ⟨hnext.levels, hnext.recorded, hnext.scan⟩
    · exact h.push hstep
  · cases hstep
    exact ⟨h.levels, h.recorded, h.scan⟩

/-- The rings after one access, and what an access of the consumer leaves alone. -/
theorem inRing_pop
    (h : s.Inv cap)
    (hstep : s.inRing cap level a = some t)
    (ha : ∀ trade, a ≠ .callPush trade) :
    ((∀ l, LevelOk cap l (t.rings l)) ∧ Recorded t.rings t.pushed t.popped) ∧
      ((t.consumer = s.consumer ∧ t.waiting = s.waiting) ∧
        ∀ l, l ≠ level → t.rings l = s.rings l) := by
  refine ⟨inRing_keeps h.levels h.recorded (fun x hx => absurd hx (ha x)) hstep, ?_⟩
  obtain ⟨ring, hring, rfl⟩ := inRing_eq_some.mp hstep
  exact ⟨⟨rfl, rfl⟩, fun l hne => Function.update_of_ne hne _ _⟩

theorem inRing_self
    (hstep : s.inRing cap level a = some t) :
    (s.rings level).step cap.toCapacity a = some (t.rings level) := by
  obtain ⟨ring, hring, rfl⟩ := inRing_eq_some.mp hstep
  simpa only [Function.update_self] using hring

/-- The call of a ring's `try_pop`. -/
theorem callPop_ring
    (hstep : (ring.step cap.toCapacity .callPop) = some ring') :
    ring'.consumer = .loadHead false ∧ ring'.queued = ring.queued := by
  simp only [SpscRun.step] at hstep
  split at hstep
  · cases hstep
    exact ⟨rfl, rfl⟩
  · cases hstep

theorem ringScan_loadHead
    (hconsumer : ring.consumer = .loadHead false)
    (hqueued : waiting <+: ring.queued) :
    RingScan level waiting ring := by
  unfold RingScan
  rw [hconsumer]
  exact hqueued

theorem Inv.callPop
    (h : s.Inv cap)
    (hstep : s.inRing cap mostUrgentLevel .callPop = some t) :
    Inv cap { t with
      consumer := .scanning mostUrgentLevel
      waiting := fun l => (s.rings l).queued } := by
  obtain ⟨⟨hlevels, hrecorded⟩, -, hother⟩ := inRing_pop h hstep (fun _ hx => by cases hx)
  obtain ⟨hconsumer, hqueued⟩ := callPop_ring (inRing_self hstep)
  refine ⟨hlevels, hrecorded, ?_, ringScan_loadHead hconsumer (by rw [hqueued]), ?_⟩
  · intro l hl
    exact absurd hl (Fin.not_lt_zero l)
  · intro l hl
    show (s.rings l).queued <+: (t.rings l).queued
    rw [hother l hl.ne']

/-- The ring of the level has returned: it was empty, or gave a trade. -/
theorem Inv.ringReturned
    (h : s.Inv cap)
    {result : Option (Option (Trade R))}
    (hpc : s.consumer = .scanning level)
    (hreturned : (s.rings level).consumer = .returned result) :
    (∀ l < level, s.waiting l = []) ∧ (∀ l, level < l → s.waiting l <+: (s.rings l).queued) ∧
      match result with
      | none => s.waiting level = []
      | some trade => ∃ x, trade = some x ∧ levelOf x = level ∧
          ∀ y ∈ (s.waiting level).head?, y = x := by
  have hscan := h.scan
  unfold ScanOk at hscan
  rw [hpc] at hscan
  obtain ⟨hempty, hring, hlater⟩ := hscan
  unfold RingScan at hring
  rw [hreturned] at hring
  refine ⟨hempty, hlater, ?_⟩
  cases result with
  | none => exact hring
  | some trade => exact hring

theorem Inv.nextLevel
    (h : s.Inv cap)
    {next : Fin 4} {u : PriorityRun R}
    (hpc : s.consumer = .scanning level)
    (hreturned : (s.rings level).consumer = .returned none)
    (hnext : next.val = level.val + 1)
    (hreturn : s.inRing cap level .pop = some t)
    (hcall : t.inRing cap next .callPop = some u) :
    Inv cap { u with consumer := .scanning next } := by
  obtain ⟨hempty, hlater, hnone⟩ := h.ringReturned hpc hreturned
  obtain ⟨⟨hlevels, hrecorded⟩, ⟨-, hwaiting⟩, hother⟩ :=
    inRing_pop h hreturn (fun _ hx => by cases hx)
  obtain ⟨hconsumer, hqueued⟩ := callPop_ring (inRing_self hcall)
  have hkeeps := inRing_keeps hlevels hrecorded (fun _ hx => by cases hx) hcall
  obtain ⟨ring, -, rfl⟩ := inRing_eq_some.mp hcall
  have hne : next ≠ level := fun heq => by rw [heq] at hnext; omega
  refine ⟨hkeeps.1, hkeeps.2, ?_, ringScan_loadHead hconsumer ?_, ?_⟩
  · intro l hl
    show t.waiting l = []
    rw [hwaiting]
    rcases lt_or_eq_of_le (Fin.le_def.mpr (by rw [Fin.lt_def] at hl; omega) : l ≤ level)
      with hl | rfl
    · exact hempty l hl
    · exact hnone
  · rw [hqueued, hother next hne]
    show t.waiting next <+: _
    rw [hwaiting]
    exact hlater next (Fin.lt_def.mpr (by omega))
  · intro l hl
    have hl' : level < l := Fin.lt_def.mpr (by rw [Fin.lt_def] at hl; omega)
    show t.waiting l <+: (Function.update t.rings next ring l).queued
    rw [hwaiting, Function.update_of_ne hl.ne', hother l hl'.ne']
    exact hlater l hl'

theorem Inv.popStep
    (h : s.Inv cap)
    (hstep : s.popStep cap = some t) :
    t.Inv cap := by
  unfold PriorityRun.popStep at hstep
  cases hpc : s.consumer with
  | idle =>
      simp [hpc] at hstep
  | scanning level =>
      simp only [hpc] at hstep
      split at hstep
      · -- the ring gave a trade
        rename_i trade hreturned
        obtain ⟨hempty, -, x, rfl, hx, hfront⟩ := h.ringReturned hpc hreturned
        obtain ⟨u, hu, rfl⟩ := Option.map_eq_some_iff.mp hstep
        obtain ⟨⟨hlevels, hrecorded⟩, ⟨-, hwaiting⟩, -⟩ :=
          inRing_pop h hu (fun _ hx => by cases hx)
        refine ⟨hlevels, hrecorded, x, rfl, ?_, ?_⟩
        · show ∀ l < levelOf x, u.waiting l = []
          rw [hwaiting, hx]
          exact hempty
        · show ∀ y ∈ (u.waiting (levelOf x)).head?, y = x
          rw [hwaiting, hx]
          exact hfront
      · rename_i hreturned
        split at hstep
        · obtain ⟨u, hu, hrest⟩ := Option.bind_eq_some_iff.mp hstep
          obtain ⟨v, hv, rfl⟩ := Option.map_eq_some_iff.mp hrest
          exact h.nextLevel hpc hreturned rfl hu hv
        · -- the last ring was empty too
          rename_i hlast
          obtain ⟨hempty, -, hnone⟩ := h.ringReturned hpc hreturned
          obtain ⟨u, hu, rfl⟩ := Option.map_eq_some_iff.mp hstep
          obtain ⟨⟨hlevels, hrecorded⟩, ⟨-, hwaiting⟩, -⟩ :=
            inRing_pop h hu (fun _ hx => by cases hx)
          refine ⟨hlevels, hrecorded, ?_⟩
          intro l
          show u.waiting l = []
          rw [hwaiting]
          rcases lt_or_eq_of_le (Fin.le_def.mpr (by omega) : l ≤ level) with hl | rfl
          · exact hempty l hl
          · exact hnone
      · -- inside the ring
        rename_i hsome hnone
        obtain ⟨⟨hlevels, hrecorded⟩, ⟨hconsumer, hwaiting⟩, hother⟩ :=
          inRing_pop h hstep (fun _ hx => by cases hx)
        have hscan := h.scan
        unfold ScanOk at hscan
        rw [hpc] at hscan
        obtain ⟨hempty, hring, hlater⟩ := hscan
        have hinside : ∀ result, (s.rings level).consumer ≠ .returned result := by
          intro result heq
          cases result with
          | none => exact hnone heq
          | some trade => exact hsome trade heq
        refine ⟨hlevels, hrecorded, ?_⟩
        unfold ScanOk
        rw [hconsumer, hpc, hwaiting]
        refine ⟨hempty, hring.popStep (h.levels level) hinside (inRing_self hstep), ?_⟩
        intro l hl
        rw [hother l hl.ne']
        exact hlater l hl
  | returned result =>
      simp only [hpc, Option.some.injEq] at hstep
      subst hstep
      exact ⟨h.levels, h.recorded, trivial⟩

theorem Inv.step
    (h : s.Inv cap)
    {action : PriorityAction R}
    (hstep : s.step cap action = some t) :
    t.Inv cap := by
  cases action with
  | callPush trade =>
      simp only [PriorityRun.step] at hstep
      split at hstep
      · obtain ⟨u, hu, rfl⟩ := Option.map_eq_some_iff.mp hstep
        have hnext := h.callPush hu
        exact ⟨hnext.levels, hnext.recorded, hnext.scan⟩
      · cases hstep
  | push =>
      exact h.pushStep hstep
  | callPop =>
      simp only [PriorityRun.step] at hstep
      split at hstep
      · obtain ⟨u, hu, rfl⟩ := Option.map_eq_some_iff.mp hstep
        exact h.callPop hu
      · cases hstep
  | pop =>
      exact h.popStep hstep

end Scan

/-- What was waiting is served by priority, and no trade is lost. -/
structure ServesWaiting (cap : LevelCapacity) (s : PriorityRun R) : Prop where
  /-- The trades of a level leave in the order they came in, each of them once. -/
  levels : ∀ l, (ofLevel s.pushed l).map some =
    ofPopped s.popped l ++ (s.rings l).queued.map some
  room : ∀ l, (s.rings l).queued.length ≤ cap.size - 1
  /-- A push is refused only if the ring of its level is full when it loads the head. -/
  refused : ∀ level t, s.producer = .pushing level → s.step cap .push = some t →
    (t.rings level).producer = .returned false → (s.rings level).queued.length = cap.size - 1
  /-- A pop takes the oldest waiting trade of its level, if the more urgent ones were empty. -/
  found : ∀ trade, s.consumer = .returned (some trade) →
    ∃ x, trade = some x ∧ (∀ l < levelOf x, s.waiting l = []) ∧
      ∀ y ∈ (s.waiting (levelOf x)).head?, y = x
  /-- A pop finds nothing only if nothing was waiting. -/
  nothing : s.consumer = .returned none → ∀ l, s.waiting l = []

theorem Inv.full_of_refused
    {s t : PriorityRun R} {level : Fin 4}
    (h : s.Inv cap)
    (hpc : s.producer = .pushing level)
    (hstep : s.step cap .push = some t)
    (hrefused : (t.rings level).producer = .returned false) :
    (s.rings level).queued.length = cap.size - 1 := by
  simp only [PriorityRun.step, PriorityRun.pushStep, hpc] at hstep
  split at hstep
  · rename_i result hreturned
    obtain ⟨u, hu, rfl⟩ := Option.map_eq_some_iff.mp hstep
    have hring := inRing_self hu
    simp only [SpscRun.step, SpscRun.pushStep, hreturned, Option.some.injEq] at hring
    dsimp only at hrefused
    rw [← hring] at hrefused
    cases hrefused
  · exact (h.levels level).inv.full_of_refused (inRing_self hstep) hrefused

theorem serves_waiting_by_level
    (cap : LevelCapacity)
    {s : PriorityRun R}
    (hs : Reachable (Steps (step cap)) create s) :
    ServesWaiting cap s := by
  have h : s.Inv cap := hs.invariant (inv_create cap) (fun _ _ _ h hstep => h.step hstep)
  have hscan := h.scan
  unfold ScanOk at hscan
  refine ⟨?_, ?_, fun _ _ => h.full_of_refused, ?_, ?_⟩
  · intro l
    rw [h.recorded.pushed, h.recorded.popped]
    exact (h.levels l).inv.sequence
  · intro l
    have hroom := (h.levels l).inv.ring.room
    omega
  · intro trade hpc
    rw [hpc] at hscan
    exact hscan
  · intro hpc
    rw [hpc] at hscan
    exact hscan

section Overtaken

def tradeAt (id : UInt64) (priority : UInt8) : Trade Unit :=
  { (Trade.createLimitOrder 0 0 0 [] .buy () ()).1 with clientOrderId := id, priority := priority }

/-- An access of the given side, several times. -/
def accesses (side : PriorityAction Unit) (n : Nat) : List (PriorityAction Unit) :=
  List.replicate n side

/-- A pop that has passed the urgent levels when two orders come in. -/
def pushBehindScan : List (PriorityAction Unit) :=
  List.flatten
    [[.callPop], accesses .pop 6, [.callPush (tradeAt 1 0)], accesses .push 6,
      [.callPush (tradeAt 2 128)], accesses .push 6, accesses .pop 5]

/-- The urgent order, which came in first, stays behind. -/
theorem serves_waiting_by_level_overtaken :
    ∃ s : PriorityRun Unit, Reachable (Steps (step ⟨⟨⟨1⟩, by decide⟩, by decide⟩)) create s ∧
      s.pushed.map Trade.clientOrderId = [1, 2] ∧
      s.popped.map (Option.map Trade.clientOrderId) = [some 2] ∧
      ServesWaiting ⟨⟨⟨1⟩, by decide⟩, by decide⟩ s := by
  have hrun : (runActions (step ⟨⟨⟨1⟩, by decide⟩, by decide⟩) create pushBehindScan).map
      (fun s => (s.pushed.map Trade.clientOrderId,
        s.popped.map (Option.map Trade.clientOrderId))) = some ([1, 2], [some 2]) := by
    decide +kernel
  obtain ⟨s, hs, hview⟩ := Reachable.exists_of_runActions hrun
  obtain ⟨hpushed, hpopped⟩ := Prod.mk.inj hview
  exact ⟨s, hs, hpushed, hpopped, serves_waiting_by_level _ hs⟩

end Overtaken

end PriorityRun

end Core
end CryptoHft
