import CryptoHft.Core.MpscLinearizable

/-!
# `MPSCTradeQueue` makes progress

The loop of `try_push` has no bound of its own: an access fails if another producer
was faster, or if the compare-exchange fails for no reason.  `PushPc.potential` is
the number of accesses that a call still makes if neither happens.  A producer whose
position is the current one finds the slot free or the ring full; one whose position
has passed pays for another round, and each claim of another producer makes a
position pass once.

`try_pop` has no loop, so that its accesses are bounded whatever the producers do.
-/

namespace CryptoHft
namespace Core

open Lib

universe u v

variable {ι : Type v} {α : Type u}

/-- The accesses of a call that are left, its return included. -/
def PushPc.potential (enqueuePos : Nat) : PushPc α → Nat
  | .idle => 0
  | .loadPos _ => 6
  | .loadSeq _ pos => if pos = enqueuePos then 5 else 7
  | .casPos _ pos => if pos = enqueuePos then 4 else 6
  | .writeData _ _ => 3
  | .storeSeq _ _ => 2
  | .returned _ _ => 1

def PopPc.potential : PopPc α → Nat
  | .idle => 0
  | .loadSeq => 5
  | .readData => 4
  | .storeSeq _ => 3
  | .increment _ => 2
  | .returned _ => 1

section Potentials

variable (trade : α) (pos : Nat)

theorem potential_loadSeq_self :
    (PushPc.loadSeq trade pos).potential pos = 5 :=
  if_pos rfl

theorem potential_casPos_self :
    (PushPc.casPos trade pos).potential pos = 4 :=
  if_pos rfl

variable {pos}

theorem potential_loadSeq_of_ne
    {enqueuePos : Nat}
    (h : pos ≠ enqueuePos) :
    (PushPc.loadSeq trade pos).potential enqueuePos = 7 :=
  if_neg h

theorem potential_casPos_of_ne
    {enqueuePos : Nat}
    (h : pos ≠ enqueuePos) :
    (PushPc.casPos trade pos).potential enqueuePos = 6 :=
  if_neg h

theorem potential_casPos_le
    (pos enqueuePos : Nat) :
    (PushPc.casPos trade pos).potential enqueuePos ≤ 6 := by
  rw [PushPc.potential]
  split_ifs <;> omega

end Potentials

namespace MpscQueue

variable [DecidableEq ι]

/-- The compare-exchange of a producer finds the position it loaded. -/
def findsPosition (q : MpscQueue ι α) (i : ι) : Bool :=
  match q.producers i with
  | .casPos _ pos => q.enqueuePos = pos
  | _ => false

/-- An access of producer `i`. -/
def accessOf (i : ι) (_ : MpscQueue ι α) : QueueAction ι α → Nat
  | .push j _ => if j = i then 1 else 0
  | _ => 0

/-- Another producer claims a position. -/
def claimBesides (i : ι) (q : MpscQueue ι α) : QueueAction ι α → Nat
  | .push j spurious => if j ≠ i ∧ q.findsPosition j ∧ spurious = false then 1 else 0
  | _ => 0

/-- The compare-exchange of producer `i` fails although the position is right. -/
def spuriousFailure (i : ι) (q : MpscQueue ι α) : QueueAction ι α → Nat
  | .push j spurious => if j = i ∧ q.findsPosition j ∧ spurious = true then 1 else 0
  | _ => 0

def accessOfConsumer (_ : MpscQueue ι α) : QueueAction ι α → Nat
  | .pop => 1
  | _ => 0

section Steps

variable {cap : PowTwo} {q q' : MpscQueue ι α}

theorem setProducer_enqueuePos
    (i : ι)
    (pc : PushPc α) :
    (q.setProducer i pc).enqueuePos = q.enqueuePos := rfl

omit [DecidableEq ι] in
/-- A producer with the current position does not have to load it again. -/
theorem Inv.not_behind
    (h : Inv cap q)
    (hcap : 2 ≤ cap.size)
    (hbound : q.pushed.length + cap.size ≤ 2 ^ 63) :
    signedDiff (q.buffer (cap.index q.enqueuePos)).sequence q.enqueuePos ≤ 0 := by
  rw [h.enqueue, h.signedDiff_eq hbound le_rfl]
  have hle := h.ring.released_le
  have hroom := h.ring.room
  rcases hroom.lt_or_eq with hlt | heq
  · rw [h.ring.free _ le_rfl hlt]
    omega
  · -- the slot is that of the oldest position
    have hindex : cap.index q.pushed.length = cap.index q.released := by
      rw [heq, cap.index_eq_mod, cap.index_eq_mod, Nat.add_mod_right]
    have hsequence := h.ring.claimed q.released le_rfl (by omega)
    rw [← hindex] at hsequence
    rcases hsequence with hsequence | ⟨hsequence, -⟩ <;> rw [hsequence] <;> omega

omit [DecidableEq ι] in
/-- A position passes once. -/
theorem potential_le
    (pc : PushPc α)
    (pos pos' : Nat) :
    pc.potential pos' ≤ pc.potential pos + 2 := by
  cases pc with
  | loadSeq | casPos =>
      simp only [PushPc.potential]
      split_ifs <;> omega
  | _ =>
      exact Nat.le_add_right _ _

/-- An access of the producer itself. -/
theorem Inv.potential_own
    (h : Inv cap q)
    (hcap : 2 ≤ cap.size)
    (hbound : q.pushed.length + cap.size ≤ 2 ^ 63)
    {i : ι} {spurious : Bool}
    (hstep : q.pushStep cap i spurious = some q') :
    (q'.producers i).potential q'.enqueuePos + 1 ≤
      (q.producers i).potential q.enqueuePos + 2 * spuriousFailure i q (.push i spurious) := by
  unfold MpscQueue.pushStep at hstep
  cases hpc : q.producers i with
  | idle =>
      simp [hpc] at hstep
  | loadPos trade =>
      simp only [hpc, Option.some.injEq] at hstep
      subst hstep
      simp only [setProducer_self, setProducer_enqueuePos, PushPc.potential, if_pos]
      omega
  | loadSeq trade pos =>
      simp only [hpc] at hstep
      by_cases hpos : pos = q.enqueuePos
      · have hdiff := h.not_behind hcap hbound
        rw [← hpos] at hdiff
        split_ifs at hstep with hzero hneg
        · cases hstep
          rw [setProducer_self, setProducer_enqueuePos, hpos, potential_casPos_self,
            potential_loadSeq_self]
          omega
        · cases hstep
          rw [setProducer_self, hpos, potential_loadSeq_self]
          exact Nat.le_add_right 2 _ |>.trans (Nat.add_le_add_right (by omega) _)
        · omega
      · rw [potential_loadSeq_of_ne _ hpos]
        split_ifs at hstep
        · cases hstep
          rw [setProducer_self]
          have := potential_casPos_le trade pos q.enqueuePos
          exact Nat.le_trans (Nat.succ_le_succ this) (Nat.le_add_right 7 _)
        · cases hstep
          rw [setProducer_self]
          exact Nat.le_trans (by decide : 2 ≤ 7) (Nat.le_add_right 7 _)
        · cases hstep
          rw [setProducer_self]
          exact Nat.le_add_right 7 _
  | casPos trade pos =>
      simp only [hpc] at hstep
      split_ifs at hstep with hcas
      · cases hstep
        show ((q.setProducer i _).producers i).potential _ + 1 ≤ _
        rw [setProducer_self, hcas.1, potential_casPos_self]
        exact Nat.le_add_right 4 _
      · cases hstep
        rw [setProducer_self, setProducer_enqueuePos, potential_loadSeq_self]
        by_cases hpos : pos = q.enqueuePos
        · -- the exchange failed for no reason
          have hspurious : spurious = true := by
            rw [← Bool.not_eq_false]
            exact fun hfalse => hcas ⟨hpos.symm, hfalse⟩
          have hfailure : spuriousFailure i q (.push i spurious) = 1 := by
            simp [spuriousFailure, findsPosition, hpc, hpos, hspurious]
          rw [hfailure, hpos, potential_casPos_self]
        · rw [potential_casPos_of_ne _ hpos]
          exact Nat.le_add_right 6 _
  | writeData trade pos | storeSeq trade pos | returned trade result =>
      simp only [hpc, Option.some.injEq] at hstep
      subst hstep
      simp only [setProducer_self, PushPc.potential]
      omega

/-- An access of another producer. -/
theorem potential_other
    {i j : ι} {spurious : Bool}
    (hne : j ≠ i)
    (hstep : q.pushStep cap j spurious = some q') :
    (q'.producers i).potential q'.enqueuePos ≤
      (q.producers i).potential q.enqueuePos + 2 * claimBesides i q (.push j spurious) := by
  have hother : ∀ pc, (q.setProducer j pc).producers i = q.producers i :=
    fun pc => Function.update_of_ne (Ne.symm hne) _ _
  unfold MpscQueue.pushStep at hstep
  cases hpc : q.producers j with
  | idle =>
      simp [hpc] at hstep
  | casPos trade pos =>
      simp only [hpc] at hstep
      split_ifs at hstep with hcas
      · cases hstep
        have hclaim : claimBesides i q (.push j spurious) = 1 := by
          simp [claimBesides, findsPosition, hpc, hne, hcas]
        rw [hclaim]
        show ((q.setProducer j _).producers i).potential _ ≤ _
        rw [hother]
        exact potential_le _ _ _
      · cases hstep
        rw [hother]
        exact Nat.le_add_right _ _
  | loadSeq trade pos =>
      simp only [hpc] at hstep
      split_ifs at hstep <;> cases hstep <;> rw [hother] <;> exact Nat.le_add_right _ _
  | loadPos trade | returned trade result =>
      simp only [hpc, Option.some.injEq] at hstep
      subst hstep
      rw [hother]
      exact Nat.le_add_right _ _
  | writeData trade pos =>
      simp only [hpc, Option.some.injEq] at hstep
      subst hstep
      show (((q.writeSlot _ _).setProducer j _).producers i).potential q.enqueuePos ≤ _
      rw [show ((q.writeSlot (cap.index pos) trade).setProducer j _).producers i =
        q.producers i from hother _]
      exact Nat.le_add_right _ _
  | storeSeq trade pos =>
      simp only [hpc, Option.some.injEq] at hstep
      subst hstep
      show (((q.storeSequence _ _).setProducer j _).producers i).potential q.enqueuePos ≤ _
      rw [show ((q.storeSequence (cap.index pos) _).setProducer j _).producers i =
        q.producers i from hother _]
      exact Nat.le_add_right _ _

theorem Inv.potential_step
    (h : Inv cap q)
    (hcap : 2 ≤ cap.size)
    (hbound : q.pushed.length + cap.size ≤ 2 ^ 63)
    {i : ι} {a : QueueAction ι α}
    (hcall : ∀ trade, a ≠ .callPush i trade)
    (hstep : q.step cap a = some q') :
    (q'.producers i).potential q'.enqueuePos + accessOf i q a ≤
      (q.producers i).potential q.enqueuePos +
        (2 * claimBesides i q a + 2 * spuriousFailure i q a) := by
  cases a with
  | callPush j trade =>
      have hne : i ≠ j := fun heq => hcall trade (heq ▸ rfl)
      simp only [MpscQueue.step] at hstep
      split at hstep
      · cases hstep
        rw [show (q.setProducer j (.loadPos trade)).producers i = q.producers i from
          Function.update_of_ne hne _ _]
        exact Nat.le_add_right _ _
      · cases hstep
  | push j spurious =>
      by_cases heq : j = i
      · subst heq
        have hown := h.potential_own hcap hbound hstep
        simp only [accessOf, if_pos]
        omega
      · have hother := potential_other heq hstep
        simp only [accessOf, if_neg heq]
        omega
  | callPop =>
      simp only [MpscQueue.step] at hstep
      split at hstep
      · cases hstep
        exact Nat.le_add_right _ _
      · cases hstep
  | pop =>
      simp only [MpscQueue.step, MpscQueue.popStep] at hstep
      split at hstep
      · cases hstep
      · split_ifs at hstep <;> cases hstep <;> exact Nat.le_add_right _ _
      all_goals
        cases hstep
        exact Nat.le_add_right _ _

/-- The consumer has no loop. -/
theorem potential_consumer
    {a : QueueAction ι α}
    (hcall : a ≠ .callPop)
    (hstep : q.step cap a = some q') :
    q'.consumer.potential + accessOfConsumer q a ≤ q.consumer.potential := by
  cases a with
  | callPush j trade =>
      simp only [MpscQueue.step] at hstep
      split at hstep
      · cases hstep
        exact le_rfl
      · cases hstep
  | push j spurious =>
      have hconsumer : q'.consumer = q.consumer := by
        simp only [MpscQueue.step, MpscQueue.pushStep] at hstep
        split at hstep <;> (try split_ifs at hstep) <;> cases hstep <;> rfl
      rw [hconsumer]
      exact le_rfl
  | callPop =>
      exact absurd rfl hcall
  | pop =>
      simp only [MpscQueue.step, MpscQueue.popStep] at hstep
      cases hpc : q.consumer with
      | idle =>
          simp [hpc] at hstep
      | loadSeq =>
          simp only [hpc] at hstep
          split_ifs at hstep <;> cases hstep <;> simp [PopPc.potential, accessOfConsumer]
      | readData | storeSeq trade | increment trade | returned result =>
          simp only [hpc, Option.some.injEq] at hstep
          subst hstep
          simp [PopPc.potential, accessOfConsumer]

end Steps

section Progress

variable {cap : PowTwo} {q q' : MpscQueue ι α}

/-- A call in progress can always make its next access. -/
theorem isSome_pushStep
    (cap : PowTwo)
    {i : ι}
    (hcall : q.producers i ≠ .idle)
    (spurious : Bool) :
    (q.pushStep cap i spurious).isSome := by
  unfold MpscQueue.pushStep
  cases hpc : q.producers i with
  | idle => exact absurd hpc hcall
  | loadSeq | casPos =>
      dsimp only
      split_ifs <;> rfl
  | _ => rfl

omit [DecidableEq ι] in
theorem isSome_popStep
    (cap : PowTwo)
    (hcall : q.consumer ≠ .idle) :
    (q.popStep cap).isSome := by
  unfold MpscQueue.popStep
  cases hpc : q.consumer with
  | idle => exact absurd hpc hcall
  | loadSeq =>
      dsimp only
      split_ifs <;> rfl
  | _ => rfl

/--
Calls finish.  A `try_push` makes six accesses, its return included, two more for each
position that another producer claims meanwhile, and two more for each spurious failure of
its own; a `try_pop` makes five at most.  Neither waits for another thread.
-/
theorem calls_finish
    (cap : PowTwo)
    (hcap : 2 ≤ cap.size)
    (hreach : Reaches cap q)
    {trace : List (MpscQueue ι α × QueueAction ι α)}
    (hrun : Execution (Steps (MpscQueue.step cap)) q trace q')
    (hbound : q'.pushed.length + cap.size ≤ 2 ^ 63) :
    (∀ i trade, q.producers i = .loadPos trade →
      (∀ p ∈ trace, ∀ trade', p.2 ≠ .callPush i trade') →
      Execution.total (accessOf i) trace ≤
        6 + Execution.total (fun s a => 2 * claimBesides i s a + 2 * spuriousFailure i s a) trace) ∧
      (q.consumer = .loadSeq → (∀ p ∈ trace, p.2 ≠ .callPop) →
        Execution.total accessOfConsumer trace ≤ 5) ∧
      (∀ i spurious, q'.producers i ≠ .idle → (q'.step cap (.push i spurious)).isSome) ∧
      (q'.consumer ≠ .idle → (q'.step cap .pop).isSome) := by
  have hlater : ∀ (s : MpscQueue ι α) a t, Steps (MpscQueue.step cap) s a t →
      t.pushed.length + cap.size ≤ 2 ^ 63 → s.pushed.length + cap.size ≤ 2 ^ 63 := by
    intro s a t hstep ht
    have := length_pushed_le hstep
    omega
  have hfirst : q.pushed.length + cap.size ≤ 2 ^ 63 :=
    Execution.bound_first (B := fun s => s.pushed.length + cap.size ≤ 2 ^ 63) hlater hrun hbound
  have hinv : Inv cap q := hreach.inv hcap hfirst
  have hwithin := hrun.within_bound hlater hbound
  have hkeeps : ∀ s a t, Inv cap s →
      (Steps (MpscQueue.step cap) s a t ∧ t.pushed.length + cap.size ≤ 2 ^ 63) → Inv cap t :=
    fun s a t hs ha => hs.step hcap (hlater s a t ha.1 ha.2) ha.1
  refine ⟨?_, ?_, fun i spurious hcall => isSome_pushStep cap hcall spurious,
    fun hcall => isSome_popStep cap hcall⟩
  · intro i trade hstart hcall
    have hrule := Execution.potential (fun s => (s.producers i).potential s.enqueuePos)
      (accessOf i) (fun s a => 2 * claimBesides i s a + 2 * spuriousFailure i s a)
      (fun _ a => ∀ trade', a ≠ .callPush i trade') hinv
      (fun s a t hs ha _ => hkeeps s a t hs ha)
      (fun s a t hs ha hok => hs.potential_step hcap (hlater s a t ha.1 ha.2) hok ha.1)
      hwithin hcall
    obtain ⟨-, hrule⟩ := hrule
    have hpotential : (q.producers i).potential q.enqueuePos = 6 := by
      rw [hstart]
      rfl
    rw [hpotential] at hrule
    exact (Nat.le_add_left _ _).trans hrule
  · intro hstart hcall
    have hrule := Execution.measure (fun s => s.consumer.potential) accessOfConsumer
      (fun _ a => a ≠ .callPop) hinv
      (fun s a t hs ha _ => hkeeps s a t hs ha)
      (fun s a t hs ha hok => potential_consumer hok ha.1) hwithin hcall
    obtain ⟨-, hrule⟩ := hrule
    rw [hstart] at hrule
    exact (Nat.le_add_left _ _).trans hrule

/-- A producer loads its position, and another one claims it first. -/
def lostRace : List (QueueAction Bool Nat) :=
  List.flatten
    [List.replicate 2 (.push false false), [.callPush true 8], List.replicate 6 (.push true false),
      List.replicate 6 (.push false false)]

/-- It makes eight accesses. -/
theorem calls_finish_after_lost_race :
    ∃ (trace : List (MpscQueue Bool Nat × QueueAction Bool Nat)) (q' : MpscQueue Bool Nat),
      q'.pushed = [8, 7] ∧ Execution.total (accessOf false) trace = 8 ∧
        Execution.total (accessOf false) trace ≤ 6 + Execution.total
          (fun s a => 2 * claimBesides false s a + 2 * spuriousFailure false s a) trace := by
  have hstart : Reaches ⟨1⟩ ((empty : MpscQueue Bool Nat).setProducer false (.loadPos 7)) :=
    Reachable.of_runActions [.callPush false 7] Reachable.init rfl
  have hrun : (runTrace (MpscQueue.step ⟨1⟩)
      ((empty : MpscQueue Bool Nat).setProducer false (.loadPos 7)) lostRace).map
      (fun p => (p.2.pushed, Execution.total (accessOf false) p.1, p.1.map Prod.snd)) =
      some ([8, 7], 8, lostRace) := by
    rfl
  obtain ⟨⟨trace, q'⟩, hrun, hview⟩ := Option.map_eq_some_iff.mp hrun
  obtain ⟨hpushed, hview⟩ := Prod.mk.inj hview
  obtain ⟨haccesses, hlabels⟩ := Prod.mk.inj hview
  refine ⟨trace, q', hpushed, haccesses, ?_⟩
  have hexecution := Execution.of_runTrace lostRace Execution.init hrun
  refine (calls_finish ⟨1⟩ (by decide) hstart hexecution ?_).1 false 7 rfl ?_
  · rw [show q'.pushed = [8, 7] from hpushed]
    decide
  · intro p hp trade heq
    have hmem : p.2 ∈ lostRace := by
      rw [← hlabels]
      exact List.mem_map_of_mem hp
    rw [heq] at hmem
    simp [lostRace] at hmem

end Progress

end MpscQueue

end Core
end CryptoHft
