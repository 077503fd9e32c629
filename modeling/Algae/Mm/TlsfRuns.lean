/- A heap in use: a client that frees what it holds and writes into it only. Whatever it does,
   the heap is an allocator. -/

import Algae.Mm.TlsfAlign
import Algae.Mm.TlsfCreate
import Algae.Mm.TlsfRealloc

set_option autoImplicit false
set_option relaxedAutoImplicit false

namespace Algae.Mm.TlsfRuns

open Algae.Lib.Allocation
open Algae.Lib.ByteMemory (Byte Mem load64_congr)
open Algae.Lib.Tiling Algae.Lib.TwoLevelIndex Algae.Mm.Tlsf
open Algae.Mm.TlsfWords Algae.Mm.TlsfBlocks Algae.Mm.TlsfHeap Algae.Mm.TlsfHeld Algae.Mm.TlsfAlloc
open Algae.Mm.TlsfAlign Algae.Mm.TlsfCreate Algae.Mm.TlsfRealloc

/-- The heap and the regions that the client holds, each as long as tlsf_block_size says. -/
structure Session where
  heap : Control
  held : List Region

inductive Call
  | malloc (request : Nat)
  | memalign (align request : Nat)
  | free (ptr : Nat)
  | realloc (ptr request : Nat)
  | write (x : Nat) (v : Byte)

/-- A request is a USIZE; what is freed, resized or written is held. An alignment is a power of two
below the largest, and what is resized is less than the largest block. -/
def Legal (t : Session) : Call → Prop
  | .malloc request => request < 0x10000000000000000
  | .memalign align request => (∃ k < 63, align = 2 ^ k) ∧ request < 0x10000000000000000
  | .free ptr => ptr = 0 ∨ ∃ r ∈ t.held, r.1 = ptr
  | .realloc ptr request => (ptr = 0 ∨ ∃ r ∈ t.held, r.1 = ptr) ∧ request < 0x100000000 - 7
  | .write x _ => ∃ r ∈ t.held, Within x r

def without (ptr : Nat) (held : List Region) : List Region :=
  held.filter fun r => decide (r.1 ≠ ptr)

def Session.take (held : List Region) (p : Nat) (s : Control) : Session :=
  if p = 0 then ⟨s, held⟩ else ⟨s, (p, tlsfBlockSize s.mem p) :: held⟩

def perform (control : Nat) (t : Session) : Call → Option (Nat × Session)
  | .malloc request => do
    let (p, s) ← tlsfMalloc control request t.heap
    some (p, Session.take t.held p s)
  | .memalign align request => do
    let (p, s) ← tlsfMemalign control align request t.heap
    some (p, Session.take t.held p s)
  | .free ptr => do
    let s ← tlsfFree control ptr t.heap
    some (0, ⟨s, without ptr t.held⟩)
  | .realloc ptr request => do
    let (p, s) ← tlsfRealloc control ptr request t.heap
    some (p, Session.take (if p = 0 ∧ request ≠ 0 then t.held else without ptr t.held) p s)
  | .write x v => some (0, { t with heap := { t.heap with mem := Function.update t.heap.mem x v } })

@[simp] theorem Session.take_heap (held : List Region) (p : Nat) (s : Control) :
    (Session.take held p s).heap = s := by
  unfold Session.take
  split
  · rfl
  · rfl

theorem perform_malloc {control request p : Nat} {t t' : Session} :
    perform control t (.malloc request) = some (p, t') ↔
      ∃ s, tlsfMalloc control request t.heap = some (p, s) ∧ t' = Session.take t.held p s := by
  simp only [perform, Option.bind_eq_bind, Option.bind_eq_some_iff, Option.some.injEq, Prod.exists,
    Prod.mk.injEq]
  constructor
  · rintro ⟨p, s, call, rfl, rfl⟩
    exact ⟨s, call, rfl⟩
  · rintro ⟨s, call, rfl⟩
    exact ⟨p, s, call, rfl, rfl⟩

theorem perform_free {control ptr p : Nat} {t t' : Session} :
    perform control t (.free ptr) = some (p, t') ↔
      ∃ s, tlsfFree control ptr t.heap = some s ∧ p = 0 ∧ t' = ⟨s, without ptr t.held⟩ := by
  simp only [perform, Option.bind_eq_bind, Option.bind_eq_some_iff, Option.some.injEq,
    Prod.mk.injEq, @eq_comm _ 0 p, @eq_comm _ _ t']

def Session.state (t : Session) : State Byte := ⟨{r | r ∈ t.held}, t.heap.mem⟩

def Session.region (t : Session) (ptr : Nat) : Option Region :=
  t.held.find? fun r => decide (r.1 = ptr)

def grantEvent (p : Nat) (t' : Session) : Event Byte :=
  if p = 0 then .refuse else .grant (p, tlsfBlockSize t'.heap.mem p)

def Call.event (t : Session) (p : Nat) (t' : Session) : Call → Event Byte
  | .malloc _ => grantEvent p t'
  | .memalign _ _ => grantEvent p t'
  | .free ptr => (t.region ptr).elim .refuse .release
  | .realloc ptr request =>
    match t.region ptr with
    | none => grantEvent p t'
    | some r =>
      if p ≠ 0 then .move r (p, tlsfBlockSize t'.heap.mem p) request
      else if request = 0 then .release r
      else .refuse
  | .write x v => .write x v

structure InUse (a : Arena) (t : Session) (bs : List Block) : Prop where
  heap : Heap a t.heap bs
  held : ∀ r, r ∈ t.held ↔ r ∈ live bs
  nodup : t.held.Nodup

section Live

variable {a : Arena} {s : Control} {bs : List Block}

private theorem heap_write (heap : Heap a s bs) {r : Region} (member : r ∈ live bs) {x : Nat}
    (inside : Within x r) (v : Byte) : Heap a { s with mem := Function.update s.mem x v } bs := by
  refine heap_change heap member fun y outside => Function.update_of_ne ?_ _ _
  rintro rfl
  exact outside inside

end Live

section Steps

variable {a : Arena} {s : Control} {bs : List Block} {t t' : Session}

theorem tlsfBlockSize_live (heap : Heap a s bs) {r : Region} (member : r ∈ live bs) :
    tlsfBlockSize s.mem r.1 = r.2 := by
  obtain ⟨b, mb, _, _, rfl⟩ := member
  have fits := heap.holds.fits b mb
  have word := fits.addr_word
  rw [tlsfBlockSize, if_pos (show b.addr + 16 ≠ 0 by omega), blockFromPtr_add (by omega)]
  exact blockSize_eq fits (heap.holds.headers b mb).word

private theorem eq_of_start (heap : Heap a s bs) {r q : Region} (mr : r ∈ live bs)
    (mq : q ∈ live bs) (same : r.1 = q.1) :
    r = q := by
  have size := tlsfBlockSize_live heap mr
  have size' := tlsfBlockSize_live heap mq
  rw [same] at size
  exact Prod.ext same (size.symm.trans size')

theorem state_eq {s : Control} {held : List Region} {live' : Set Region}
    (eq : ∀ r, r ∈ held ↔ r ∈ live') :
    Session.state ⟨s, held⟩ = ⟨live', s.mem⟩ := by
  rw [Session.state]
  congr 1
  exact Set.ext eq

private theorem granted_step (use : InUse a t bs) {p length size : Nat} {s' : Control}
    {bs' : List Block} (nonnull : 0 < p) (granted : Granted a t.heap s' bs bs' p length size) :
    ∃ bs', InUse a (Session.take t.held p s') bs' ∧
      Step a.outside (a.pool + 16) a.limit t.state (grantEvent p (Session.take t.held p s'))
        (Session.take t.held p s').state := by
  have member : (p, length) ∈ live bs' := by
    rw [granted.live_eq]
    exact Set.mem_insert _ _
  have size := tlsfBlockSize_live granted.heap member
  dsimp only at size
  have held : ∀ r, r ∈ (p, length) :: t.held ↔ r ∈ live bs' := by
    intro r
    rw [granted.live_eq, Set.mem_insert_iff, List.mem_cons, use.held]
  have sound := live_sound granted.heap
  obtain ⟨low, high, positive⟩ := sound.inside _ member
  have taken : Session.take t.held p s' = ⟨s', (p, length) :: t.held⟩ := by
    rw [Session.take, if_neg (by omega), size]
  rw [taken]
  refine ⟨bs', ⟨granted.heap, held, ?_⟩, ?_⟩
  · exact List.nodup_cons.mpr ⟨fun old => granted.fresh ((use.held _).mp old), use.nodup⟩
  · rw [grantEvent, if_neg (by omega), size, state_eq held, granted.live_eq, state_eq use.held]
    refine Step.grant low high positive (fun q old => ?_) granted.keeps
    refine sound.apart _ member q (by rw [granted.live_eq]; exact Set.mem_insert_of_mem _ old) ?_
    rintro rfl
    exact granted.fresh old

private theorem refused_step (use : InUse a t bs) :
    ∃ bs', InUse a (Session.take t.held 0 t.heap) bs' ∧
      Step a.outside (a.pool + 16) a.limit t.state (grantEvent 0 (Session.take t.held 0 t.heap))
        (Session.take t.held 0 t.heap).state :=
  ⟨bs, use, Step.refuse (Keeps.refl _ _)⟩

theorem malloc_step (use : InUse a t bs) {request : Nat} (word : request < 0x10000000000000000) :
    ∃ p s' bs', tlsfMalloc a.control request t.heap = some (p, s') ∧
      InUse a (Session.take t.held p s') bs' ∧
      Step a.outside (a.pool + 16) a.limit t.state (grantEvent p (Session.take t.held p s'))
        (Session.take t.held p s').state := by
  rcases tlsfMalloc_cases use.heap word with ⟨call, _⟩ | ⟨b, s', bs', length, _, _, call, granted⟩
  · obtain ⟨bs', use', step⟩ := refused_step use
    exact ⟨0, t.heap, bs', call, use', step⟩
  · obtain ⟨bs', use', step⟩ := granted_step use (Nat.succ_pos _) granted
    exact ⟨b.addr + 16, s', bs', call, use', step⟩

private theorem memalign_step (use : InUse a t bs) {k request : Nat} (below : k < 63)
    (word : request < 0x10000000000000000) :
    ∃ p s' bs', tlsfMemalign a.control (2 ^ k) request t.heap = some (p, s') ∧
      InUse a (Session.take t.held p s') bs' ∧
      Step a.outside (a.pool + 16) a.limit t.state (grantEvent p (Session.take t.held p s'))
        (Session.take t.held p s').state := by
  rcases tlsfMemalign_cases use.heap below word with call | ⟨p, s', bs', length, call,
    nonnull, _, granted⟩
  · obtain ⟨bs', use', step⟩ := refused_step use
    exact ⟨0, t.heap, bs', call, use', step⟩
  · obtain ⟨bs', use', step⟩ := granted_step use nonnull granted
    exact ⟨p, s', bs', call, use', step⟩

theorem mem_without {ptr : Nat} {held : List Region} {q : Region} :
    q ∈ without ptr held ↔ q ∈ held ∧ q.1 ≠ ptr := by
  rw [without, List.mem_filter, decide_eq_true_eq]

private theorem held_nonnull (use : InUse a t bs) {q : Region} (member : q ∈ t.held) : q.1 ≠ 0 := by
  have low := ((live_sound use.heap).inside q ((use.held q).mp member)).1
  omega

private theorem without_null (use : InUse a t bs) : without 0 t.held = t.held :=
  List.filter_eq_self.mpr fun _ member => decide_eq_true (held_nonnull use member)

private theorem region_null (use : InUse a t bs) : t.region 0 = none :=
  List.find?_eq_none.mpr fun _ member => by simpa using held_nonnull use member

private theorem region_held (use : InUse a t bs) {r : Region} (member : r ∈ t.held) :
    t.region r.1 = some r := by
  cases search : t.region r.1 with
  | none => exact absurd (decide_eq_true rfl) (List.find?_eq_none.mp search r member)
  | some q =>
    have same :=
      of_decide_eq_true (List.find?_some (p := fun q : Region => decide (q.1 = r.1)) search)
    have inside := (use.held q).mp (List.mem_of_find?_eq_some search)
    rw [eq_of_start use.heap inside ((use.held r).mp member) same]

theorem without_live (use : InUse a t bs) {r : Region} (member : r ∈ t.held) (q : Region) :
    q ∈ without r.1 t.held ↔ q ∈ live bs \ {r} := by
  rw [mem_without, use.held]
  refine and_congr_right fun inside =>
    not_congr ⟨eq_of_start use.heap inside ((use.held r).mp member), ?_⟩
  exact congrArg Prod.fst

theorem free_step (use : InUse a t bs) {r : Region} (member : r ∈ t.held) :
    ∃ s' bs', tlsfFree a.control r.1 t.heap = some s' ∧ InUse a ⟨s', without r.1 t.held⟩ bs' ∧
      Step a.outside (a.pool + 16) a.limit t.state (.release r)
        (Session.state ⟨s', without r.1 t.held⟩) := by
  have in_use := (use.held r).mp member
  obtain ⟨s', bs', call, heap, live_eq, keeps⟩ := tlsfFree_live use.heap in_use
  have held := without_live use member
  refine ⟨s', bs', call, ⟨heap, fun q => by rw [live_eq, held], use.nodup.filter _⟩, ?_⟩
  rw [state_eq held, state_eq use.held]
  exact Step.release in_use keeps

private theorem moved_step (use : InUse a t bs) {r q : Region} {request : Nat} {s' : Control}
    {bs' : List Block}
    (member : r ∈ t.held) (positive : request ≠ 0) (small : request < 0x100000000 - 7)
    (moved : Moved a t.heap s' bs bs' r q request) :
    InUse a ⟨s', q :: without r.1 t.held⟩ bs' ∧
      Step a.outside (a.pool + 16) a.limit t.state (.move r q request)
        (Session.state ⟨s', q :: without r.1 t.held⟩) := by
  have member' : q ∈ live bs' := by
    rw [moved.live_eq]
    exact Set.mem_insert _ _
  have rest := without_live use member
  have held : ∀ p, p ∈ q :: without r.1 t.held ↔ p ∈ live bs' := by
    intro p
    rw [moved.live_eq, Set.mem_insert_iff, List.mem_cons, rest]
  have sound := live_sound moved.heap
  obtain ⟨low, high, positive_length⟩ := sound.inside _ member'
  refine ⟨⟨moved.heap, held, ?_⟩, ?_⟩
  · exact List.nodup_cons.mpr ⟨fun old => moved.fresh ((rest _).mp old), use.nodup.filter _⟩
  · rw [state_eq held, moved.live_eq, state_eq use.held]
    have enough := (adjusted_served positive small).2
    refine Step.move ((use.held r).mp member) low high positive_length
      (enough.trans moved.length_ge)
      (fun p old => ?_) moved.keeps moved.copied
    refine sound.apart _ member' p (by rw [moved.live_eq]; exact Set.mem_insert_of_mem _ old) ?_
    rintro rfl
    exact moved.fresh old

theorem realloc_held (use : InUse a t bs) {r : Region} {request : Nat} (member : r ∈ t.held)
    (positive : request ≠ 0) (small : request < 0x100000000 - 7) :
    (perform a.control t (.realloc r.1 request) = some (0, t) ∧ r.2 < adjusted request) ∨
    ∃ q s' bs',
      perform a.control t (.realloc r.1 request) = some (q.1, ⟨s', q :: without r.1 t.held⟩) ∧
      q.1 ≠ 0 ∧ tlsfBlockSize s'.mem q.1 = q.2 ∧ Moved a t.heap s' bs bs' r q request ∧
      (adjusted request ≤ r.2 → q.1 = r.1) := by
  rcases tlsfRealloc_cases use.heap ((use.held r).mp member) positive small with
    ⟨call, short, _⟩ | ⟨q, s', bs', call, moved, stays⟩
  · refine Or.inl ⟨?_, short⟩
    have kept : True ∧ request ≠ 0 := ⟨trivial, positive⟩
    simp only [perform, call, if_pos kept, Option.bind_eq_bind, Option.bind_some]
    rfl
  · have member' : q ∈ live bs' := by
      rw [moved.live_eq]
      exact Set.mem_insert _ _
    have size := tlsfBlockSize_live moved.heap member'
    have low := ((live_sound moved.heap).inside _ member').1
    have nonnull : q.1 ≠ 0 := by omega
    refine Or.inr ⟨q, s', bs', ?_, nonnull, size, moved, stays⟩
    have gave : ¬(q.1 = 0 ∧ request ≠ 0) := fun none => nonnull none.1
    simp only [perform, call, if_neg gave, Session.take, if_neg nonnull, size, Option.bind_eq_bind,
      Option.bind_some]

def Comes (a : Arena) (t : Session) (c : Call) : Prop :=
  ∃ p t' bs', perform a.control t c = some (p, t') ∧ InUse a t' bs' ∧
    Step a.outside (a.pool + 16) a.limit t.state (c.event t p t') t'.state

private theorem realloc_comes (use : InUse a t bs) {ptr request : Nat}
    (legal : ptr = 0 ∨ ∃ r ∈ t.held, r.1 = ptr)
    (small : request < 0x100000000 - 7) : Comes a t (.realloc ptr request) := by
  rcases legal with rfl | ⟨r, member, rfl⟩
  · obtain ⟨p, s', bs', call, use', step⟩ :=
      malloc_step use (show request < 0x10000000000000000 by omega)
    refine ⟨p, _, bs', ?_, use', ?_⟩
    · simp only [perform, tlsfRealloc, ne_eq, not_true, false_and, if_false, if_true, call,
        without_null use, ite_self, Option.bind_eq_bind, Option.bind_some]
    · rw [Call.event, region_null use]
      exact step
  · by_cases zero : request = 0
    · subst zero
      obtain ⟨s', bs', call, use', step⟩ := free_step use member
      have freed : tlsfRealloc a.control r.1 0 t.heap = some (0, s') := by
        rw [tlsfRealloc, if_pos ⟨held_nonnull use member, rfl⟩, call]
        rfl
      refine ⟨0, _, bs', ?_, use', ?_⟩
      · simp only [perform, freed, ne_eq, not_true, and_false, if_false, Option.bind_eq_bind,
          Option.bind_some]
        rfl
      · rw [Call.event, region_held use member]
        exact step
    · rcases realloc_held use member zero small with ⟨call, _⟩ | ⟨q, s', bs', call, nonnull,
        size, moved, _⟩
      · refine ⟨0, t, bs, call, use, ?_⟩
        simp only [Call.event, region_held use member, ne_eq, not_true, if_false, if_neg zero]
        exact Step.refuse (Keeps.refl _ _)
      · obtain ⟨use', step⟩ := moved_step use member zero small moved
        refine ⟨q.1, _, bs', call, use', ?_⟩
        simp only [Call.event, region_held use member, if_pos nonnull, size]
        exact step

private theorem write_comes (use : InUse a t bs) {x : Nat} {v : Byte}
    (legal : ∃ r ∈ t.held, Within x r) :
    Comes a t (.write x v) := by
  obtain ⟨r, member, inside⟩ := legal
  have heap := heap_write use.heap ((use.held r).mp member) inside v
  exact ⟨0, _, bs, rfl, ⟨heap, use.held, use.nodup⟩, Step.write member inside⟩

theorem perform_step (use : InUse a t bs) {c : Call} (legal : Legal t c) : Comes a t c := by
  cases c with
  | malloc request =>
    obtain ⟨p, s', bs', call, use', step⟩ := malloc_step use legal
    refine ⟨p, _, bs', ?_, use', step⟩
    simp only [perform, call, Option.bind_eq_bind, Option.bind_some]
  | memalign align request =>
    obtain ⟨⟨k, below, rfl⟩, word⟩ := legal
    obtain ⟨p, s', bs', call, use', step⟩ := memalign_step use below word
    refine ⟨p, _, bs', ?_, use', step⟩
    simp only [perform, call, Option.bind_eq_bind, Option.bind_some]
  | free ptr =>
    rcases legal with rfl | ⟨r, member, rfl⟩
    · refine ⟨0, t, bs, ?_, use, ?_⟩
      · simp only [perform, tlsfFree, without_null use, ne_eq, not_true, if_false,
          Option.bind_eq_bind, Option.bind_some]
      · rw [Call.event, region_null use]
        exact Step.refuse (Keeps.refl _ _)
    · obtain ⟨s', bs', call, use', step⟩ := free_step use member
      refine ⟨0, _, bs', ?_, use', ?_⟩
      · simp only [perform, call, Option.bind_eq_bind, Option.bind_some]
      · rw [Call.event, region_held use member]
        exact step
  | realloc ptr request => exact realloc_comes use legal.1 legal.2
  | write x v => exact write_comes use legal

end Steps

def Calls (control : Nat) : Session → List Call → Session → Prop :=
  Trace fun t c t' => Legal t c ∧ ∃ p, perform control t c = some (p, t')

theorem Calls.nil {control : Nat} (t : Session) : Calls control t [] t := Trace.nil t

theorem Calls.cons {control : Nat} {t t' t'' : Session} {p : Nat} {c : Call} {cs : List Call}
    (legal : Legal t c)
    (call : perform control t c = some (p, t')) (rest : Calls control t' cs t'') :
    Calls control t (c :: cs) t'' :=
  Trace.cons ⟨legal, p, call⟩ rest

def Call.value (x : Nat) (v : Byte) : Call → Byte
  | .write y w => if y = x then w else v
  | _ => v

def lastByte (x : Nat) (cs : List Call) (v : Byte) : Byte := cs.foldl (Call.value x) v

def Call.GivesUp (ptr : Nat) : Call → Prop
  | .free q => q = ptr
  | .realloc q _ => q = ptr
  | _ => False

section Runs

variable {a : Arena} {bs : List Block} {t t' : Session} {p : Nat}

theorem grantEvent_value (x : Nat) (v : Byte) : (grantEvent p t').value x v = v := by
  unfold grantEvent
  split
  · rfl
  · rfl

private theorem event_value (c : Call) (x : Nat) (v : Byte) :
    (c.event t p t').value x v = c.value x v := by
  cases c with
  | malloc request => exact grantEvent_value x v
  | memalign align request => exact grantEvent_value x v
  | free ptr =>
    unfold Call.event
    dsimp only
    cases t.region ptr <;> rfl
  | realloc ptr request =>
    unfold Call.event
    dsimp only
    split
    · exact grantEvent_value x v
    · split
      · rfl
      · split
        · rfl
        · rfl
  | write y w => rfl

theorem region_start {ptr : Nat} {r : Region} (found : t.region ptr = some r) : r.1 = ptr :=
  of_decide_eq_true (List.find?_some (p := fun r : Region => decide (r.1 = ptr)) found)

private theorem not_releases {c : Call} {r : Region} (kept : ¬c.GivesUp r.1) :
    ¬(c.event t p t').Releases r := by
  have granted : ¬(grantEvent p t').Releases r := by
    unfold grantEvent
    split
    · exact id
    · exact id
  cases c with
  | malloc request => exact granted
  | memalign align request => exact granted
  | free ptr =>
    unfold Call.event
    dsimp only
    cases found : t.region ptr with
    | none => exact id
    | some q =>
      rintro rfl
      exact kept (region_start found).symm
  | realloc ptr request =>
    unfold Call.event
    dsimp only
    cases found : t.region ptr with
    | none => exact granted
    | some q =>
      have other : q ≠ r := by
        rintro rfl
        exact kept (region_start found).symm
      dsimp only
      split
      · exact other
      · split
        · exact other
        · exact id
  | write y w => exact id

theorem call_step (t : Session) (c : Call) (t' : Session) (use : ∃ bs, InUse a t bs)
    (call : Legal t c ∧ ∃ p, perform a.control t c = some (p, t')) :
    (∃ bs, InUse a t' bs) ∧ ∃ e, Step a.outside (a.pool + 16) a.limit t.state e t'.state ∧
      (∀ x v, e.value x v = c.value x v) ∧ ∀ r : Region, e.Releases r → c.GivesUp r.1 := by
  obtain ⟨bs, use⟩ := use
  obtain ⟨legal, p, call⟩ := call
  obtain ⟨p₁, t₁, bs₁, call₁, use₁, step⟩ := perform_step use legal
  obtain ⟨rfl, rfl⟩ := Prod.mk.inj (Option.some.inj (call.symm.trans call₁))
  exact ⟨⟨bs₁, use₁⟩, _, step, event_value c, fun r => not_imp_not.mp not_releases⟩

theorem Calls.refines {cs : List Call} (use : InUse a t bs) (calls : Calls a.control t cs t') :
    ∃ bs' es, InUse a t' bs' ∧ Run a.outside (a.pool + 16) a.limit t.state es t'.state ∧
      (∀ x v, lastValue x es v = lastByte x cs v) ∧
      ∀ r : Region, (∀ c ∈ cs, ¬c.GivesUp r.1) → ∀ e ∈ es, ¬e.Releases r := by
  obtain ⟨⟨bs', use'⟩, es, run, values, releases⟩ :=
    Trace.run call_step calls ⟨bs, use⟩
  exact ⟨bs', es, use', run, values, releases⟩

end Runs

end Algae.Mm.TlsfRuns
