import HyperCore.Ipi.Sync
import HyperCore.Sched.Sgi

/-!
# Function calls across pCPUs

`ipi_call_func` has the target run `fn(arg)`.

* On AArch64 the request is in the target's slot `g_ipi_call_desc`, which a second call
  overwrites, and the target is told by an SGI, which coalesces with a pending one.
  `ipi_send_sgi` always names bit 0 of the target list, so the SGI reaches the pCPU with
  Aff0 = 0 of the target's cluster. `sgi_calls_delivered` gives the condition under which
  every call is run once.
* On RISC-V the function goes to the global `g_tlb_shootdown_fn`. The handler of
  `IPI_CALL_FUNC` does nothing, and the one of `IPI_TLB_SHOOTDOWN` runs the function with
  a null argument, so no call is ever delivered (`hart_call_not_delivered`).

`made` and `ran` are records for the statements: the calls made to each pCPU, and what
each has run with the vector it was handling.
-/

namespace HyperCore.Ipi

/-- `IPI_TLB_SHOOTDOWN` -/
def ipiTlbShootdown : Nat := 1

/-- `IPI_CALL_FUNC` -/
def ipiCallFunc : Nat := 2

/-- A function that `ipi_handle` has run for a vector. -/
structure CallRun (F A : Type) where
  vec : Nat
  fn : F
  arg : A

/-- Each of these pCPUs has run each call made to it exactly once, with its own function
and argument, and functions are run for `IPI_CALL_FUNC` only. -/
def Delivered {F A : Type} (made : Nat → List (F × A)) (ran : Nat → List (CallRun F A))
    (quiet : Nat → Prop) : Prop :=
  (∀ t, quiet t → ((ran t).map fun r => (r.fn, r.arg)).Perm (made t)) ∧
    ∀ t, ∀ r ∈ ran t, r.vec = ipiCallFunc

/-! ## AArch64 -/

/-- `host_cpu_count` and the `mpidr` fields of `host_cpus`. -/
structure HostCpus where
  count : Nat
  mpidr : Nat → BitVec 64
  le : count ≤ 4

/-- `smp_cpu_to_mpidr` -/
def smpCpuToMpidr (h : HostCpus) (cpu : Nat) : BitVec 64 :=
  if h.count ≤ cpu then BitVec.allOnes 64 else h.mpidr cpu

/-- `GICV3_SGIR_VALUE` -/
def gicv3SgirValue (aff3 aff2 aff1 intid irm tgt : BitVec 64) : BitVec 64 :=
  (aff3 &&& 0xff) <<< 48 ||| (irm &&& 0x1) <<< 40 ||| (aff2 &&& 0xff) <<< 32 |||
    (intid &&& 0xf) <<< 24 ||| (aff1 &&& 0xff) <<< 16 ||| (tgt &&& 0xffff)

/-- The value that `ipi_send_sgi` writes to ICC_SGI1R. -/
def sgirTo (targetMpidr : BitVec 64) (sgiId : Nat) : BitVec 64 :=
  gicv3SgirValue ((targetMpidr >>> 32) &&& 0xff) ((targetMpidr >>> 16) &&& 0xff)
    ((targetMpidr >>> 8) &&& 0xff) (BitVec.ofNat 64 sgiId) 0 1

instance (data mpidr : BitVec 64) : Decidable (Sched.ListNames data mpidr) :=
  inferInstanceAs (Decidable (∃ bit < 16, data.getLsbD bit = true ∧
    (mpidr.extractLsb' 0 8).toNat = (data.extractLsb' 44 4).toNat * 16 + bit ∧
    mpidr.extractLsb' 8 8 = data.extractLsb' 16 8 ∧
    mpidr.extractLsb' 16 8 = data.extractLsb' 32 8 ∧
    mpidr.extractLsb' 32 8 = data.extractLsb' 48 8))

/-- Where a pCPU is in `ipi_call_func`. -/
inductive Sender (A : Type)
  | idle
  | arg (target : Nat) (a : A)
  | send (target : Nat)

def Sender.target {A : Type} : Sender A → Option Nat
  | .idle => none
  | .arg t _ => some t
  | .send t => some t

/-- Where a pCPU is in the handling of an SGI. -/
inductive SgiHandler (F A : Type)
  | idle
  | taken (vec : Nat)
  | gotFn (fn : Option F)
  | gotArg (fn : Option F) (arg : A)
  | cleared (fn : Option F) (arg : A)

/-- Taken for `IPI_CALL_FUNC`, with the slot still to be cleared. -/
def SgiHandler.Busy {F A : Type} : SgiHandler F A → Prop
  | .taken vec => vec = ipiCallFunc
  | .gotFn _ => True
  | .gotArg _ _ => True
  | _ => False

structure SgiState (F A : Type) where
  fn : Nat → Option F
  arg : Nat → A
  pending : Nat → Nat → Bool
  sender : Nat → Sender A
  handler : Nat → SgiHandler F A
  made : Nat → List (F × A)
  ran : Nat → List (CallRun F A)

section

variable {F A : Type}

/-- All slots empty; `null` is the null pointer. -/
def initSgi (null : A) : SgiState F A where
  fn _ := none
  arg _ := null
  pending _ _ := false
  sender _ := .idle
  handler _ := .idle
  made _ := []
  ran _ := []

def SgiState.setHandler (s : SgiState F A) (cpu : Nat) (h : SgiHandler F A) : SgiState F A :=
  { s with handler := Function.update s.handler cpu h }

def SgiState.setSender (s : SgiState F A) (cpu : Nat) (x : Sender A) : SgiState F A :=
  { s with sender := Function.update s.sender cpu x }

def SgiState.setPending (s : SgiState F A) (cpu vec : Nat) (b : Bool) : SgiState F A :=
  { s with pending := Function.update s.pending cpu (Function.update (s.pending cpu) vec b) }

/-- `ipi_send_cpu`: the SGI becomes pending at every pCPU that ICC_SGI1R names. -/
def SgiState.ipiSendCpu (h : HostCpus) (s : SgiState F A) (target vec : Nat) : SgiState F A :=
  let mpidr := smpCpuToMpidr h target
  { s with
    pending :=
      if mpidr = BitVec.allOnes 64 then s.pending
      else fun cpu v => s.pending cpu v ||
        decide (cpu < h.count ∧ v = vec ∧ Sched.ListNames (sgirTo mpidr vec) (h.mpidr cpu)) }

inductive SgiAction (F A : Type)
  /-- `ipi_call_func`, up to the write of `fn` -/
  | call (cpu : Nat) (target : Int) (fn : F) (arg : A)
  /-- the write of `arg`, or the SGI -/
  | advance (cpu : Nat)
  /-- another SGI becomes pending -/
  | other (cpu vec : Nat)
  /-- ICC_IAR1 is read -/
  | ack (cpu vec : Nat)
  /-- the next access of `ipi_handle` -/
  | handle (cpu : Nat)

/-- One access of `ipi_handle` on pCPU `cpu`. -/
def SgiState.handleStep (s : SgiState F A) (cpu : Nat) : SgiHandler F A → Option (SgiState F A)
  | .idle => none
  | .taken vec =>
    if vec = ipiCallFunc then some (s.setHandler cpu (.gotFn (s.fn cpu)))
    else some (s.setHandler cpu .idle)
  | .gotFn fn => some (s.setHandler cpu (.gotArg fn (s.arg cpu)))
  | .gotArg fn arg =>
    some ({ s with fn := Function.update s.fn cpu none }.setHandler cpu (.cleared fn arg))
  | .cleared (some f) arg =>
    let run : CallRun F A := ⟨ipiCallFunc, f, arg⟩
    some ({ s with ran := Function.update s.ran cpu (s.ran cpu ++ [run]) }.setHandler cpu .idle)
  | .cleared none _ => some (s.setHandler cpu .idle)

def SgiState.step (h : HostCpus) (s : SgiState F A) : SgiAction F A → Option (SgiState F A)
  | .call cpu target fn arg =>
    match s.sender cpu with
    | .idle =>
      if target < 0 ∨ 4 ≤ target then some s
      else
        let t := target.toNat
        some ({ s with
          fn := Function.update s.fn t (some fn)
          made := Function.update s.made t (s.made t ++ [(fn, arg)]) }.setSender cpu (.arg t arg))
    | _ => none
  | .advance cpu =>
    match s.sender cpu with
    | .idle => none
    | .arg t a => some ({ s with arg := Function.update s.arg t a }.setSender cpu (.send t))
    | .send t => some ((s.ipiSendCpu h t ipiCallFunc).setSender cpu .idle)
  | .other cpu vec => if vec = ipiCallFunc then none else some (s.setPending cpu vec true)
  | .ack cpu vec =>
    match s.handler cpu with
    | .idle =>
      if s.pending cpu vec then some ((s.setPending cpu vec false).setHandler cpu (.taken vec))
      else none
    | _ => none
  | .handle cpu => s.handleStep cpu (s.handler cpu)

/-- The states reached by steps that meet `ok`. -/
inductive SgiRun (h : HostCpus) (null : A) (ok : SgiState F A → SgiAction F A → Prop) :
    SgiState F A → Prop
  | init : SgiRun h null ok (initSgi null)
  | step {s s' : SgiState F A} {a : SgiAction F A} :
      SgiRun h null ok s → ok s a → s.step h a = some s' → SgiRun h null ok s'

/-- The pCPU exists, has handled its SGIs, and nobody is calling it. -/
def SgiState.Quiet (h : HostCpus) (s : SgiState F A) (t : Nat) : Prop :=
  t < h.count ∧ s.handler t = .idle ∧ s.pending t ipiCallFunc = false ∧
    ∀ c, (s.sender c).target ≠ some t

/-- The SGI for the target reaches the target alone. -/
def ReachesOnly (h : HostCpus) (t : Nat) : Prop :=
  ∀ c < h.count, Sched.ListNames (sgirTo (h.mpidr t) ipiCallFunc) (h.mpidr c) ↔ c = t

/-- A call finds the target's slot empty, and its SGI will reach the target alone. -/
def CallsFree (h : HostCpus) (s : SgiState F A) : SgiAction F A → Prop
  | .call _ target _ _ => 0 ≤ target → target < h.count →
      s.fn target.toNat = none ∧ ReachesOnly h target.toNat
  | _ => True

/-- A function that has been read and cleared and is still to be run. -/
def SgiHandler.waiting : SgiHandler F A → List (F × A)
  | .cleared (some f) a => [(f, a)]
  | _ => []

def SgiState.waiting (s : SgiState F A) (t : Nat) : List (F × A) := (s.handler t).waiting

/-- The call in the slot of `t`, and how far it is. -/
inductive InSlot (s : SgiState F A) (t : Nat) : Option (F × A) → Prop
  | free : s.fn t = none → s.pending t ipiCallFunc = false →
      (∀ c, (s.sender c).target ≠ some t) → ¬ (s.handler t).Busy → InSlot s t none
  | writing {c : Nat} {f : F} {a : A} : s.fn t = some f → s.pending t ipiCallFunc = false →
      s.sender c = .arg t a → (∀ c', (s.sender c').target = some t → c' = c) →
      ¬ (s.handler t).Busy → InSlot s t (some (f, a))
  | sending {c : Nat} {f : F} {a : A} : s.fn t = some f → s.arg t = a →
      s.pending t ipiCallFunc = false → s.sender c = .send t →
      (∀ c', (s.sender c').target = some t → c' = c) → ¬ (s.handler t).Busy →
      InSlot s t (some (f, a))
  | signalled {f : F} {a : A} : s.fn t = some f → s.arg t = a →
      s.pending t ipiCallFunc = true → (∀ c, (s.sender c).target ≠ some t) →
      ¬ (s.handler t).Busy → InSlot s t (some (f, a))
  | handling {f : F} {a : A} : s.fn t = some f → s.arg t = a →
      s.pending t ipiCallFunc = false → (∀ c, (s.sender c).target ≠ some t) →
      (s.handler t = .taken ipiCallFunc ∨ s.handler t = .gotFn (some f) ∨
        s.handler t = .gotArg (some f) a) → InSlot s t (some (f, a))

/-- Each call to an existing pCPU has been run, or is about to be, or is in the slot. -/
structure SgiInv (h : HostCpus) (s : SgiState F A) : Prop where
  slot : ∀ t < h.count, ∃ o, InSlot s t o ∧
    (s.made t).Perm (((s.ran t).map fun r => (r.fn, r.arg)) ++ s.waiting t ++ o.toList)
  reach : ∀ c t, (s.sender c).target = some t → t < h.count → ReachesOnly h t
  vec : ∀ t, ∀ r ∈ s.ran t, r.vec = ipiCallFunc

variable {h : HostCpus} {null : A} {s s' : SgiState F A} {t c : Nat} {f : F} {a : A}
  {o : Option (F × A)}

/-- Steps that concern other pCPUs. -/
theorem InSlot.congr (hs : InSlot s t o) (hfn : s'.fn t = s.fn t) (harg : s'.arg t = s.arg t)
    (hpending : s'.pending t ipiCallFunc = s.pending t ipiCallFunc)
    (hhandler : s'.handler t = s.handler t)
    (hsender : ∀ c, (s.sender c).target = some t ∨ (s'.sender c).target = some t →
      s'.sender c = s.sender c) : InSlot s' t o := by
  have hto : ∀ c, (s'.sender c).target = some t → (s.sender c).target = some t := by
    intro c hc
    rw [← hsender c (.inr hc)]
    exact hc
  cases hs with
  | free h₁ h₂ h₃ h₄ =>
    exact .free (hfn.trans h₁) (hpending.trans h₂) (fun c hc => h₃ c (hto c hc)) (hhandler ▸ h₄)
  | @writing c f a h₁ h₂ h₃ h₄ h₅ =>
    have hc := hsender c (.inl (by rw [h₃]; rfl))
    exact .writing (hfn.trans h₁) (hpending.trans h₂) (hc.trans h₃) (fun c hc => h₄ c (hto c hc))
      (hhandler ▸ h₅)
  | @sending c f a h₁ h₂ h₃ h₄ h₅ h₆ =>
    have hc := hsender c (.inl (by rw [h₄]; rfl))
    exact .sending (hfn.trans h₁) (harg.trans h₂) (hpending.trans h₃) (hc.trans h₄)
      (fun c hc => h₅ c (hto c hc)) (hhandler ▸ h₆)
  | signalled h₁ h₂ h₃ h₄ h₅ =>
    exact .signalled (hfn.trans h₁) (harg.trans h₂) (hpending.trans h₃)
      (fun c hc => h₄ c (hto c hc)) (hhandler ▸ h₅)
  | handling h₁ h₂ h₃ h₄ h₅ =>
    exact .handling (hfn.trans h₁) (harg.trans h₂) (hpending.trans h₃)
      (fun c hc => h₄ c (hto c hc)) (hhandler ▸ h₅)

/-- Nothing is on its way to a quiet pCPU. -/
theorem InSlot.quiet (hs : InSlot s t o) (hq : s.Quiet h t) : o = none := by
  obtain ⟨_, hidle, hpending, hsender⟩ := hq
  cases hs with
  | free => rfl
  | @writing c f a _ _ hc =>
    refine absurd ?_ (hsender c)
    rw [hc]
    rfl
  | @sending c f a _ _ _ hc =>
    refine absurd ?_ (hsender c)
    rw [hc]
    rfl
  | signalled _ _ hp => cases hpending.symm.trans hp
  | handling _ _ _ _ hbusy =>
    rw [hidle] at hbusy
    rcases hbusy with he | he | he
    · cases he
    · cases he
    · cases he

theorem SgiInv.delivered (hi : SgiInv h s) : Delivered s.made s.ran (s.Quiet h) := by
  refine ⟨fun t hq => ?_, hi.vec⟩
  obtain ⟨o, hslot, hperm⟩ := hi.slot t hq.1
  obtain rfl := hslot.quiet hq
  have hnone : s.waiting t = [] := congrArg SgiHandler.waiting hq.2.1
  rw [hnone, Option.toList_none, List.append_nil, List.append_nil] at hperm
  exact hperm.symm

/-- A step concerns one pCPU, `t₀`. -/
theorem SgiInv.change (hi : SgiInv h s) (t₀ : Nat)
    (hother : ∀ t, t ≠ t₀ → s'.fn t = s.fn t ∧ s'.arg t = s.arg t ∧
      s'.handler t = s.handler t ∧ s'.made t = s.made t ∧ s'.ran t = s.ran t)
    (hpending : ∀ t < h.count, t ≠ t₀ → s'.pending t ipiCallFunc = s.pending t ipiCallFunc)
    (hsender : ∀ t, t ≠ t₀ → ∀ c, (s.sender c).target = some t ∨
      (s'.sender c).target = some t → s'.sender c = s.sender c)
    (hslot : t₀ < h.count → ∃ o, InSlot s' t₀ o ∧
      (s'.made t₀).Perm (((s'.ran t₀).map fun r => (r.fn, r.arg)) ++ s'.waiting t₀ ++ o.toList))
    (hreach : ∀ c, (s'.sender c).target = some t₀ → t₀ < h.count → ReachesOnly h t₀)
    (hvec : ∀ r ∈ s'.ran t₀, r.vec = ipiCallFunc) : SgiInv h s' := by
  refine ⟨fun t ht => ?_, fun c t hc ht => ?_, fun t r hr => ?_⟩
  · by_cases htt : t = t₀
    · subst htt
      exact hslot ht
    · obtain ⟨hfn, harg, hhandler, hmade, hran⟩ := hother t htt
      obtain ⟨o, hs, hperm⟩ := hi.slot t ht
      refine ⟨o, hs.congr hfn harg (hpending t ht htt) hhandler (hsender t htt), ?_⟩
      rw [hmade, hran, SgiState.waiting, hhandler]
      exact hperm
  · by_cases htt : t = t₀
    · subst htt
      exact hreach c hc ht
    · refine hi.reach c t ?_ ht
      rw [← hsender t htt c (.inr hc)]
      exact hc
  · by_cases htt : t = t₀
    · subst htt
      exact hvec r hr
    · rw [(hother t htt).2.2.2.2] at hr
      exact hi.vec t r hr

theorem setSender_target {x : Sender A} {c' : Nat}
    (h : ((s.setSender c x).sender c').target = some t) :
    c' = c ∧ x.target = some t ∨ c' ≠ c ∧ (s.sender c').target = some t := by
  change (Function.update s.sender c x c').target = some t at h
  by_cases hc : c' = c
  · subst hc
    rw [Function.update_self] at h
    exact .inl ⟨rfl, h⟩
  · rw [Function.update_of_ne hc] at h
    exact .inr ⟨hc, h⟩

/-- The senders to other pCPUs when `c` goes on with its call to `t₀`. -/
theorem setSender_other {t₀ : Nat} {x : Sender A}
    (hold : ∀ t, (s.sender c).target = some t → t = t₀)
    (hnew : x.target = some t₀ ∨ x.target = none) (ht : t ≠ t₀) (c' : Nat)
    (hc' : (s.sender c').target = some t ∨ ((s.setSender c x).sender c').target = some t) :
    (s.setSender c x).sender c' = s.sender c' := by
  refine Function.update_of_ne ?_ _ _
  rintro rfl
  rcases hc' with h | h
  · exact ht (hold t h)
  · rcases setSender_target h with ⟨_, hx⟩ | ⟨hne, _⟩
    · rcases hnew with hn | hn
      · exact ht (Option.some.inj (hx.symm.trans hn))
      · cases hx.symm.trans hn
    · exact hne rfl

/-- A call starts: the slot was empty, and now holds the function. -/
theorem SgiInv.call (hi : SgiInv h s) (hidle : s.sender c = .idle)
    (hok : t < h.count → s.fn t = none ∧ ReachesOnly h t) :
    SgiInv h ({ s with
      fn := Function.update s.fn t (some f)
      made := Function.update s.made t (s.made t ++ [(f, a)]) }.setSender c (.arg t a)) := by
  generalize hs₁ : ({ s with
    fn := Function.update s.fn t (some f)
    made := Function.update s.made t (s.made t ++ [(f, a)]) } : SgiState F A) = s₁
  have hsame : s₁.sender = s.sender := by
    subst hs₁
    rfl
  have hold : ∀ t', (s₁.sender c).target ≠ some t' := by
    rw [hsame, hidle]
    exact fun _ => nofun
  refine hi.change t (fun t' ht => ?_) (fun t' _ _ => ?_) (fun t' ht c' hc' => ?_) (fun ht => ?_)
    (fun _ _ ht => (hok ht).2) (fun r hr => ?_)
  · subst hs₁
    exact ⟨Function.update_of_ne ht _ _, rfl, rfl, Function.update_of_ne ht _ _, rfl⟩
  · subst hs₁
    rfl
  · rw [← hsame]
    exact setSender_other (fun t' h => absurd h (hold t')) (.inl rfl) ht c' (hsame ▸ hc')
  · obtain ⟨hnone, _⟩ := hok ht
    obtain ⟨o, hslot, hperm⟩ := hi.slot t ht
    cases hslot with
    | free _ hpending hnobody hfree =>
      subst hs₁
      refine ⟨some (f, a), .writing (c := c) (Function.update_self ..) hpending
        (Function.update_self ..) (fun c' hc' => ?_) hfree, ?_⟩
      · rcases setSender_target hc' with ⟨he, _⟩ | ⟨_, hc'⟩
        · exact he
        · exact absurd hc' (hnobody c')
      · change (Function.update s.made t _ t).Perm _
        rw [Function.update_self]
        rw [Option.toList_none, List.append_nil] at hperm
        exact hperm.append_right _
    | writing hf => cases hnone.symm.trans hf
    | sending hf => cases hnone.symm.trans hf
    | signalled hf => cases hnone.symm.trans hf
    | handling hf => cases hnone.symm.trans hf
  · subst hs₁
    exact hi.vec t r hr

/-- The argument is written behind the function. -/
theorem SgiInv.writeArg (hi : SgiInv h s) (hsend : s.sender c = .arg t a) :
    SgiInv h ({ s with arg := Function.update s.arg t a }.setSender c (.send t)) := by
  have htarget : (s.sender c).target = some t := by
    rw [hsend]
    rfl
  refine hi.change t (fun t' ht => ⟨rfl, Function.update_of_ne ht _ _, rfl, rfl, rfl⟩)
    (fun _ _ _ => rfl) (fun t' ht c' hc' => ?_) (fun ht => ?_) (fun _ _ => hi.reach c t htarget)
    (hi.vec t)
  · exact setSender_other (fun t' h => Option.some.inj (h.symm.trans htarget)) (.inl rfl) ht c' hc'
  · obtain ⟨o, hslot, hperm⟩ := hi.slot t ht
    refine ⟨o, ?_, hperm⟩
    cases hslot with
    | free _ _ hnobody => exact absurd htarget (hnobody c)
    | @writing c₁ f a₁ hf hp hc₁ hone hfree =>
      obtain rfl := hone c htarget
      obtain ⟨_, rfl⟩ := Sender.arg.inj (hsend.symm.trans hc₁)
      refine .sending (c := c) hf (Function.update_self ..) hp (Function.update_self ..)
        (fun c' hc' => ?_) hfree
      rcases setSender_target hc' with ⟨he, _⟩ | ⟨_, hc'⟩
      · exact he
      · exact hone c' hc'
    | @sending c₁ f a₁ _ _ _ hc₁ hone =>
      obtain rfl := hone c htarget
      cases hsend.symm.trans hc₁
    | signalled _ _ _ hnobody => exact absurd htarget (hnobody c)
    | handling _ _ _ hnobody => exact absurd htarget (hnobody c)

/-- The SGI becomes pending at the target, and nowhere else. -/
theorem ipiSendCpu_pending (hr : ReachesOnly h t) (ht : t < h.count) (hc : c < h.count) :
    (s.ipiSendCpu h t ipiCallFunc).pending c ipiCallFunc =
      (s.pending c ipiCallFunc || decide (c = t)) := by
  have hmpidr : smpCpuToMpidr h t = h.mpidr t := if_neg (Nat.not_le.mpr ht)
  have hvalid : h.mpidr t ≠ BitVec.allOnes 64 := by
    intro he
    have hself := (hr t ht).mpr rfl
    rw [he] at hself
    exact absurd hself (by decide)
  unfold SgiState.ipiSendCpu
  rw [hmpidr]
  simp only [if_neg hvalid, hc, true_and, hr c hc]

theorem SgiInv.sendSgi (hi : SgiInv h s) (hsend : s.sender c = .send t) :
    SgiInv h ((s.ipiSendCpu h t ipiCallFunc).setSender c .idle) := by
  have htarget : (s.sender c).target = some t := by
    rw [hsend]
    rfl
  refine hi.change t (fun _ _ => ⟨rfl, rfl, rfl, rfl, rfl⟩) (fun t' ht' hne => ?_)
    (fun t' ht c' hc' => ?_) (fun ht => ?_) (fun _ _ => hi.reach c t htarget) (hi.vec t)
  · change (s.ipiSendCpu h t ipiCallFunc).pending t' ipiCallFunc = _
    by_cases ht : t < h.count
    · rw [ipiSendCpu_pending (hi.reach c t htarget ht) ht ht', decide_eq_false hne, Bool.or_false]
    · have hnone : smpCpuToMpidr h t = BitVec.allOnes 64 := if_pos (Nat.not_lt.mp ht)
      simp only [SgiState.ipiSendCpu, hnone, if_true]
  · exact setSender_other (s := s.ipiSendCpu h t ipiCallFunc)
      (fun t' h => Option.some.inj (h.symm.trans htarget)) (.inr rfl) ht c' hc'
  · obtain ⟨o, hslot, hperm⟩ := hi.slot t ht
    refine ⟨o, ?_, hperm⟩
    have hnow : ((s.ipiSendCpu h t ipiCallFunc).setSender c .idle).pending t ipiCallFunc = true := by
      change (s.ipiSendCpu h t ipiCallFunc).pending t ipiCallFunc = true
      rw [ipiSendCpu_pending (hi.reach c t htarget ht) ht ht, decide_eq_true rfl, Bool.or_true]
    cases hslot with
    | free _ _ hnobody => exact absurd htarget (hnobody c)
    | @writing c₁ f a₁ _ _ hc₁ hone =>
      obtain rfl := hone c htarget
      cases hsend.symm.trans hc₁
    | @sending c₁ f a₁ hf ha _ hc₁ hone hfree =>
      obtain rfl := hone c htarget
      refine .signalled hf ha hnow (fun c' hc' => ?_) hfree
      rcases setSender_target hc' with ⟨_, he⟩ | ⟨hne, hc'⟩
      · cases he
      · exact hne (hone c' hc')
    | signalled _ _ _ hnobody => exact absurd htarget (hnobody c)
    | handling _ _ _ hnobody => exact absurd htarget (hnobody c)

/-- A step of the handler outside `IPI_CALL_FUNC`. -/
theorem InSlot.calm (hs : InSlot s t o) (hfn : s'.fn t = s.fn t) (harg : s'.arg t = s.arg t)
    (hpending : s'.pending t ipiCallFunc = s.pending t ipiCallFunc) (hsender : s'.sender = s.sender)
    (hbefore : ¬ (s.handler t).Busy) (hafter : ¬ (s'.handler t).Busy) : InSlot s' t o := by
  cases hs with
  | free h₁ h₂ h₃ => exact .free (hfn.trans h₁) (hpending.trans h₂) (hsender ▸ h₃) hafter
  | writing h₁ h₂ h₃ h₄ =>
    exact .writing (hfn.trans h₁) (hpending.trans h₂) (hsender ▸ h₃) (hsender ▸ h₄) hafter
  | sending h₁ h₂ h₃ h₄ h₅ =>
    exact .sending (hfn.trans h₁) (harg.trans h₂) (hpending.trans h₃) (hsender ▸ h₄)
      (hsender ▸ h₅) hafter
  | signalled h₁ h₂ h₃ h₄ =>
    exact .signalled (hfn.trans h₁) (harg.trans h₂) (hpending.trans h₃) (hsender ▸ h₄) hafter
  | handling _ _ _ _ h₅ =>
    refine absurd ?_ hbefore
    rcases h₅ with he | he | he
    · rw [he]
      rfl
    · rw [he]
      trivial
    · rw [he]
      trivial

/-- In the handling of `IPI_CALL_FUNC` the slot holds the call that is being handled. -/
theorem InSlot.busy (hs : InSlot s t o) (hbusy : (s.handler t).Busy) : ∃ f a, o = some (f, a) ∧
    s.fn t = some f ∧ s.arg t = a ∧ s.pending t ipiCallFunc = false ∧
    (∀ c, (s.sender c).target ≠ some t) ∧
    (s.handler t = .taken ipiCallFunc ∨ s.handler t = .gotFn (some f) ∨
      s.handler t = .gotArg (some f) a) := by
  cases hs with
  | free _ _ _ hfree => exact absurd hbusy hfree
  | writing _ _ _ _ hfree => exact absurd hbusy hfree
  | sending _ _ _ _ _ hfree => exact absurd hbusy hfree
  | signalled _ _ _ _ hfree => exact absurd hbusy hfree
  | @handling f a h₁ h₂ h₃ h₄ h₅ => exact ⟨f, a, rfl, h₁, h₂, h₃, h₄, h₅⟩

/-- A step of the handler of pCPU `c`; `x` is where it goes. -/
theorem SgiInv.handler (hi : SgiInv h s) {x : SgiHandler F A}
    (hhandler : s'.handler = Function.update s.handler c x)
    (hother : ∀ t, t ≠ c → s'.fn t = s.fn t ∧ s'.ran t = s.ran t)
    (harg : s'.arg = s.arg) (hmade : s'.made = s.made) (hsender : s'.sender = s.sender)
    (hpending : ∀ t, t ≠ c → s'.pending t ipiCallFunc = s.pending t ipiCallFunc)
    (hslot : ∀ o, InSlot s c o →
      (s.made c).Perm (((s.ran c).map fun r => (r.fn, r.arg)) ++ s.waiting c ++ o.toList) →
      ∃ o', InSlot s' c o' ∧
        (s.made c).Perm (((s'.ran c).map fun r => (r.fn, r.arg)) ++ s'.waiting c ++ o'.toList))
    (hvec : ∀ r ∈ s'.ran c, r.vec = ipiCallFunc) : SgiInv h s' := by
  refine hi.change c (fun t ht => ?_) (fun t _ ht => hpending t ht) (fun _ _ _ _ => by rw [hsender])
    (fun ht => ?_) (fun c' hc' => hi.reach c' c (hsender ▸ hc')) hvec
  · obtain ⟨hfn, hran⟩ := hother t ht
    refine ⟨hfn, congrFun harg t, ?_, congrFun hmade t, hran⟩
    rw [hhandler, Function.update_of_ne ht]
  · obtain ⟨o, hs, hperm⟩ := hi.slot c ht
    rw [hmade]
    exact hslot o hs hperm

theorem setHandler_self (s : SgiState F A) (x : SgiHandler F A) :
    (s.setHandler c x).handler c = x := Function.update_self ..

theorem waiting_eq {x : SgiHandler F A} (hx : s.handler t = x) :
    s.waiting t = x.waiting := congrArg SgiHandler.waiting hx

theorem setPending_other {vec : Nat} {v : Bool} (hne : t ≠ c ∨ vec ≠ ipiCallFunc) :
    (s.setPending c vec v).pending t ipiCallFunc = s.pending t ipiCallFunc := by
  change Function.update s.pending c _ t ipiCallFunc = _
  by_cases ht : t = c
  · subst ht
    rw [Function.update_self, Function.update_of_ne (hne.resolve_left (absurd rfl)).symm]
  · rw [Function.update_of_ne ht]

theorem SgiInv.other (hi : SgiInv h s) {vec : Nat} (hvec : vec ≠ ipiCallFunc) :
    SgiInv h (s.setPending c vec true) := by
  refine ⟨fun t ht => ?_, hi.reach, hi.vec⟩
  obtain ⟨o, hs, hperm⟩ := hi.slot t ht
  exact ⟨o, hs.congr rfl rfl (setPending_other (.inr hvec)) rfl fun _ _ => rfl, hperm⟩

/-- The SGI is acknowledged. -/
theorem SgiInv.ack (hi : SgiInv h s) {vec : Nat} (hidle : s.handler c = .idle)
    (hp : s.pending c vec = true) :
    SgiInv h ((s.setPending c vec false).setHandler c (.taken vec)) := by
  have hnow := setHandler_self (c := c) (s.setPending c vec false) (.taken vec)
  refine hi.handler (x := .taken vec) rfl (fun _ _ => ⟨rfl, rfl⟩) rfl rfl rfl
    (fun t ht => setPending_other (.inl ht)) (fun o hs hperm => ⟨o, ?_, ?_⟩) (hi.vec c)
  · by_cases hcall : vec = ipiCallFunc
    · subst hcall
      cases hs with
      | free _ hnone => cases hnone.symm.trans hp
      | writing _ hnone => cases hnone.symm.trans hp
      | sending _ _ hnone => cases hnone.symm.trans hp
      | handling _ _ hnone => cases hnone.symm.trans hp
      | signalled hf ha _ hnobody _ =>
        refine .handling hf ha ?_ hnobody (.inl hnow)
        change Function.update s.pending c _ c ipiCallFunc = false
        rw [Function.update_self, Function.update_self]
    · refine hs.calm rfl rfl (setPending_other (.inr hcall)) rfl ?_ ?_
      · rw [hidle]
        exact id
      · rw [hnow]
        exact hcall
  · rw [waiting_eq hnow]
    rw [waiting_eq hidle] at hperm
    exact hperm

/-- The function is read from the slot, where it is. -/
theorem SgiInv.readFn (hi : SgiInv h s) (hh : s.handler c = .taken ipiCallFunc) :
    SgiInv h (s.setHandler c (.gotFn (s.fn c))) := by
  have hnow := setHandler_self (c := c) s (.gotFn (s.fn c))
  refine hi.handler (x := .gotFn (s.fn c)) rfl (fun _ _ => ⟨rfl, rfl⟩) rfl rfl rfl (fun _ _ => rfl)
    (fun o hs hperm => ⟨o, ?_, ?_⟩) (hi.vec c)
  · obtain ⟨f, a, rfl, hf, ha, hp, hnobody, _⟩ := hs.busy (by rw [hh]; rfl)
    exact .handling hf ha hp hnobody (.inr (.inl (hnow.trans (by rw [hf]))))
  · rw [waiting_eq hnow]
    rw [waiting_eq hh] at hperm
    exact hperm

theorem SgiInv.readArg (hi : SgiInv h s) {x : Option F} (hh : s.handler c = .gotFn x) :
    SgiInv h (s.setHandler c (.gotArg x (s.arg c))) := by
  have hnow := setHandler_self (c := c) s (.gotArg x (s.arg c))
  refine hi.handler (x := .gotArg x (s.arg c)) rfl (fun _ _ => ⟨rfl, rfl⟩) rfl rfl rfl
    (fun _ _ => rfl) (fun o hs hperm => ⟨o, ?_, ?_⟩) (hi.vec c)
  · obtain ⟨f, a, rfl, hf, ha, hp, hnobody, hwhere⟩ := hs.busy (by rw [hh]; trivial)
    rw [hh] at hwhere
    have hx : x = some f := by
      rcases hwhere with he | he | he
      · cases he
      · exact SgiHandler.gotFn.inj he
      · cases he
    exact .handling hf ha hp hnobody (.inr (.inr (hnow.trans (by rw [hx, ha]))))
  · rw [waiting_eq hnow]
    rw [waiting_eq hh] at hperm
    exact hperm

/-- The slot is cleared: the call goes from the slot to the handler. -/
theorem SgiInv.clearFn (hi : SgiInv h s) {x : Option F} {y : A} (hh : s.handler c = .gotArg x y) :
    SgiInv h ({ s with fn := Function.update s.fn c none }.setHandler c (.cleared x y)) := by
  have hnow := setHandler_self (c := c) { s with fn := Function.update s.fn c none } (.cleared x y)
  refine hi.handler (x := .cleared x y) rfl (fun t ht => ⟨Function.update_of_ne ht _ _, rfl⟩) rfl rfl
    rfl (fun _ _ => rfl) (fun o hs hperm => ?_) (hi.vec c)
  obtain ⟨f, a, rfl, hf, ha, hp, hnobody, hwhere⟩ := hs.busy (by rw [hh]; trivial)
  rw [hh] at hwhere
  obtain ⟨rfl, rfl⟩ : x = some f ∧ y = a := by
    rcases hwhere with he | he | he
    · cases he
    · cases he
    · exact SgiHandler.gotArg.inj he
  refine ⟨none, .free (Function.update_self ..) hp hnobody ?_, ?_⟩
  · rw [hnow]
    exact id
  · have hslot : s.waiting c = [] := waiting_eq hh
    rw [waiting_eq hnow, Option.toList_none, List.append_nil]
    rw [hslot, List.append_nil] at hperm
    exact hperm

/-- The handler is done; `ran` says whether it has run a function. -/
theorem SgiInv.finish (hi : SgiInv h s) {x : SgiHandler F A} (hh : s.handler c = x)
    (hcalm : ¬ x.Busy) (runs : List (CallRun F A))
    (hwait : s.waiting c = runs.map fun r => (r.fn, r.arg))
    (hvec : ∀ r ∈ runs, r.vec = ipiCallFunc) :
    SgiInv h ({ s with ran := Function.update s.ran c (s.ran c ++ runs) }.setHandler c .idle) := by
  have hnow := setHandler_self (c := c) { s with ran := Function.update s.ran c (s.ran c ++ runs) }
    .idle
  have hran : ({ s with ran := Function.update s.ran c (s.ran c ++ runs) }.setHandler c
      .idle).ran c = s.ran c ++ runs := Function.update_self ..
  refine hi.handler (x := .idle) rfl (fun t ht => ⟨rfl, Function.update_of_ne ht _ _⟩) rfl rfl rfl
    (fun _ _ => rfl) (fun o hs hperm => ⟨o, ?_, ?_⟩) (fun r hr => ?_)
  · refine hs.calm rfl rfl rfl rfl (hh ▸ hcalm) ?_
    rw [hnow]
    exact id
  · have hidle : SgiHandler.waiting (.idle : SgiHandler F A) = [] := rfl
    rw [waiting_eq hnow, hidle, hran, List.map_append, List.append_nil]
    rwa [hwait] at hperm
  · rw [hran, List.mem_append] at hr
    exact hr.elim (hi.vec c r) (hvec r)

/-- An access of `ipi_handle`. -/
theorem SgiInv.handleStep (hi : SgiInv h s) (hstep : s.handleStep c (s.handler c) = some s') :
    SgiInv h s' := by
  have hsame : Function.update s.ran c (s.ran c ++ []) = s.ran := by
    rw [List.append_nil, Function.update_eq_self]
  cases hh : s.handler c with
  | idle =>
    rw [hh] at hstep
    cases hstep
  | taken vec =>
    rw [hh, SgiState.handleStep] at hstep
    by_cases hcall : vec = ipiCallFunc
    · subst hcall
      rw [if_pos rfl, Option.some.injEq] at hstep
      subst hstep
      exact hi.readFn hh
    · rw [if_neg hcall, Option.some.injEq] at hstep
      subst hstep
      have hdone := hi.finish hh hcall [] (waiting_eq hh) nofun
      rwa [hsame] at hdone
  | gotFn x =>
    rw [hh, SgiState.handleStep, Option.some.injEq] at hstep
    subst hstep
    exact hi.readArg hh
  | gotArg x y =>
    rw [hh, SgiState.handleStep, Option.some.injEq] at hstep
    subst hstep
    exact hi.clearFn hh
  | cleared x y =>
    cases x with
    | none =>
      rw [hh, SgiState.handleStep, Option.some.injEq] at hstep
      subst hstep
      have hdone := hi.finish hh id [] (waiting_eq hh) nofun
      rwa [hsame] at hdone
    | some f =>
      rw [hh, SgiState.handleStep, Option.some.injEq] at hstep
      subst hstep
      refine hi.finish hh id [⟨ipiCallFunc, f, y⟩] (waiting_eq hh) fun r hr => ?_
      rw [List.mem_singleton.mp hr]

theorem SgiInv.step (hi : SgiInv h s) {x : SgiAction F A} (hok : CallsFree h s x)
    (hstep : s.step h x = some s') : SgiInv h s' := by
  cases x with
  | call c target f a =>
    simp only [SgiState.step] at hstep
    cases hidle : s.sender c with
    | arg t a' => simp [hidle] at hstep
    | send t => simp [hidle] at hstep
    | idle =>
      simp only [hidle] at hstep
      by_cases hrange : target < 0 ∨ 4 ≤ target
      · rw [if_pos hrange, Option.some.injEq] at hstep
        exact hstep ▸ hi
      · rw [if_neg hrange, Option.some.injEq] at hstep
        subst hstep
        rw [not_or, Int.not_lt] at hrange
        exact hi.call hidle fun ht => hok hrange.1 ((Int.toNat_lt hrange.1).mp ht)
  | advance c =>
    simp only [SgiState.step] at hstep
    cases hsend : s.sender c with
    | idle => simp [hsend] at hstep
    | arg t a =>
      simp only [hsend, Option.some.injEq] at hstep
      subst hstep
      exact hi.writeArg hsend
    | send t =>
      simp only [hsend, Option.some.injEq] at hstep
      subst hstep
      exact hi.sendSgi hsend
  | other c vec =>
    simp only [SgiState.step] at hstep
    by_cases hvec : vec = ipiCallFunc
    · simp [hvec] at hstep
    · rw [if_neg hvec, Option.some.injEq] at hstep
      subst hstep
      exact hi.other hvec
  | ack c vec =>
    simp only [SgiState.step] at hstep
    split at hstep
    · next hidle =>
      by_cases hp : s.pending c vec = true
      · rw [if_pos hp, Option.some.injEq] at hstep
        subst hstep
        exact hi.ack hidle hp
      · rw [if_neg hp] at hstep
        cases hstep
    · cases hstep
  | handle c => exact hi.handleStep hstep

theorem sgiInv_init (h : HostCpus) : SgiInv h (initSgi null : SgiState F A) := by
  refine ⟨fun t _ => ⟨none, .free rfl rfl (fun _ => nofun) id, .nil⟩, fun c t hc => ?_,
    fun t r hr => ?_⟩
  · cases hc
  · cases hr

theorem SgiRun.inv (hs : SgiRun h null (CallsFree h) s) : SgiInv h s := by
  induction hs with
  | init => exact sgiInv_init h
  | step _ hok hstep ih => exact ih.step hok hstep

/-- Every call is delivered in a run in which each finds the slot of its target empty. -/
theorem sgi_calls_delivered (hs : SgiRun h null (CallsFree h) s) :
    Delivered s.made s.ran (s.Quiet h) :=
  hs.inv.delivered

end

/-! ## RISC-V -/

structure HartState (F A : Type) where
  /-- `g_tlb_shootdown_fn` -/
  tlbFn : Option F
  pending : Nat → Nat → Bool
  /-- the vectors that `handle_s_soft_irq` has taken and not handled yet -/
  todo : Nat → Option (List Nat)
  /-- the target of a call that has written the function and not sent the IPI yet -/
  sender : Nat → Option Int
  made : Nat → List (F × A)
  ran : Nat → List (CallRun F A)

section

variable {F A : Type}

def initHart : HartState F A where
  tlbFn := none
  pending _ _ := false
  todo _ := none
  sender _ := none
  made _ := []
  ran _ := []

def HartState.setPending (s : HartState F A) (cpu vec : Nat) : HartState F A :=
  { s with pending := Function.update s.pending cpu (Function.update (s.pending cpu) vec true) }

/-- `ipi_handle` for one vector, as far as functions are concerned; `null` is the null
pointer. -/
def HartState.ipiHandle (null : A) (s : HartState F A) (cpu vec : Nat) : HartState F A :=
  if vec = ipiTlbShootdown then
    { s with
      ran := Function.update s.ran cpu
        (s.ran cpu ++ s.tlbFn.toList.map fun f => ⟨ipiTlbShootdown, f, null⟩) }
  else s

inductive HartAction (F A : Type)
  /-- `ipi_call_func`, up to the write of `g_tlb_shootdown_fn` -/
  | call (cpu : Nat) (target : Int) (fn : F) (arg : A)
  /-- its `ipi_send_cpu` -/
  | send (cpu : Nat)
  /-- another bit is set -/
  | other (cpu vec : Nat)
  /-- `riscv_ipi_take_pending` -/
  | irq (cpu : Nat)
  /-- the next vector of the loop -/
  | handle (cpu : Nat)
  /-- `riscv_ipi_send_cpu_sync` to the caller itself -/
  | self (cpu vec : Nat)

def HartState.step (m : HartMap) (null : A) (s : HartState F A) :
    HartAction F A → Option (HartState F A)
  | .call cpu target fn arg =>
    match s.sender cpu with
    | none =>
      let made :=
        match ipiValidateTarget m target 2 with
        | some _ => Function.update s.made target.toNat (s.made target.toNat ++ [(fn, arg)])
        | none => s.made
      some { s with
        tlbFn := some fn
        sender := Function.update s.sender cpu (some target)
        made := made }
    | some _ => none
  | .send cpu =>
    match s.sender cpu with
    | none => none
    | some target =>
      let s := { s with sender := Function.update s.sender cpu none }
      match ipiValidateTarget m target 2 with
      | some _ => some (s.setPending target.toNat ipiCallFunc)
      | none => some s
  | .other cpu vec => if vec = ipiCallFunc then none else some (s.setPending cpu vec)
  | .irq cpu =>
    match s.todo cpu with
    | none =>
      some { s with
        todo := Function.update s.todo cpu (some ((List.range ipiMax).filter (s.pending cpu)))
        pending := Function.update s.pending cpu fun _ => false }
    | some _ => none
  | .handle cpu =>
    match s.todo cpu with
    | none => none
    | some [] => some { s with todo := Function.update s.todo cpu none }
    | some (vec :: rest) =>
      let s := s.ipiHandle null cpu vec
      some { s with todo := Function.update s.todo cpu (some rest) }
  | .self cpu vec => some (s.ipiHandle null cpu vec)

inductive HartRun (m : HartMap) (null : A) (ok : HartState F A → HartAction F A → Prop) :
    HartState F A → Prop
  | init : HartRun m null ok initHart
  | step {s s' : HartState F A} {a : HartAction F A} :
      HartRun m null ok s → ok s a → s.step m null a = some s' → HartRun m null ok s'

/-- The pCPU has handled its IPIs, and nobody is calling it. -/
def HartState.Quiet (m : HartMap) (s : HartState F A) (t : Nat) : Prop :=
  t < m.cpuCount ∧ s.todo t = none ∧ s.pending t ipiCallFunc = false ∧
    ∀ c, s.sender c ≠ some (t : Int)

/-- The step is no call. -/
def NoCall (_ : HartState F A) : HartAction F A → Prop
  | .call _ _ _ _ => False
  | _ => True

variable {m : HartMap} {null : A} {s s' : HartState F A} {a : HartAction F A}

/-- A function is run for `IPI_TLB_SHOOTDOWN`, and it is the one that was written last. -/
theorem HartState.ipiHandle_ran {cpu vec : Nat} {t : Nat} {r : CallRun F A}
    (hr : r ∈ (s.ipiHandle null cpu vec).ran t) :
    r ∈ s.ran t ∨ r.vec = ipiTlbShootdown ∧ s.tlbFn = some r.fn := by
  unfold HartState.ipiHandle at hr
  by_cases hvec : vec = ipiTlbShootdown
  · rw [if_pos hvec] at hr
    change r ∈ Function.update s.ran cpu _ t at hr
    by_cases ht : t = cpu
    · subst ht
      rw [Function.update_self, List.mem_append, List.mem_map] at hr
      rcases hr with hold | ⟨f, hf, rfl⟩
      · exact .inl hold
      · exact .inr ⟨rfl, Option.mem_toList.mp hf⟩
    · rw [Function.update_of_ne ht] at hr
      exact .inl hr
  · rw [if_neg hvec] at hr
    exact .inl hr

theorem HartState.ipiHandle_tlbFn (cpu vec : Nat) :
    (s.ipiHandle null cpu vec).tlbFn = s.tlbFn ∧ (s.ipiHandle null cpu vec).made = s.made := by
  unfold HartState.ipiHandle
  split
  · exact ⟨rfl, rfl⟩
  · exact ⟨rfl, rfl⟩

/-- What a step does to the records: a call adds to `made`, and what a handler adds to `ran`
it has run for `IPI_TLB_SHOOTDOWN`. -/
theorem HartState.step_records (h : s.step m null a = some s') :
    (∀ t, ∀ r ∈ s'.ran t, r ∈ s.ran t ∨ r.vec = ipiTlbShootdown ∧ s.tlbFn = some r.fn) ∧
      (NoCall s a → s'.tlbFn = s.tlbFn ∧ s'.made = s.made) := by
  have hkeep : (∀ t, ∀ r ∈ s.ran t, r ∈ s.ran t ∨ r.vec = ipiTlbShootdown ∧ s.tlbFn = some r.fn) :=
    fun _ _ hr => .inl hr
  cases a with
  | call cpu target fn arg =>
    simp only [HartState.step] at h
    split at h
    · cases h
      exact ⟨hkeep, False.elim⟩
    · cases h
  | send cpu =>
    simp only [HartState.step] at h
    split at h
    · cases h
    · split at h
      · cases h
        exact ⟨hkeep, fun _ => ⟨rfl, rfl⟩⟩
      · cases h
        exact ⟨hkeep, fun _ => ⟨rfl, rfl⟩⟩
  | other cpu vec =>
    simp only [HartState.step] at h
    split at h
    · cases h
    · cases h
      exact ⟨hkeep, fun _ => ⟨rfl, rfl⟩⟩
  | irq cpu =>
    simp only [HartState.step] at h
    split at h
    · cases h
      exact ⟨hkeep, fun _ => ⟨rfl, rfl⟩⟩
    · cases h
  | handle cpu =>
    simp only [HartState.step] at h
    split at h
    · cases h
    · cases h
      exact ⟨hkeep, fun _ => ⟨rfl, rfl⟩⟩
    · cases h
      exact ⟨fun t r hr => HartState.ipiHandle_ran hr, fun _ => HartState.ipiHandle_tlbFn _ _⟩
  | self cpu vec =>
    cases h
    exact ⟨fun t r hr => HartState.ipiHandle_ran hr, fun _ => HartState.ipiHandle_tlbFn _ _⟩

variable {ok : HartState F A → HartAction F A → Prop}

/-- All that ever runs a function is the handling of `IPI_TLB_SHOOTDOWN`. -/
theorem HartRun.ran_vec (hs : HartRun m null ok s) (t : Nat) :
    ∀ r ∈ s.ran t, r.vec = ipiTlbShootdown := by
  induction hs with
  | init => exact nofun
  | step _ _ hstep ih =>
    intro r hr
    rcases (HartState.step_records hstep).1 t r hr with hold | ⟨hvec, _⟩
    · exact ih r hold
    · exact hvec

/-- Without calls there is nothing to run. -/
theorem HartRun.noCall (hs : HartRun m null NoCall s) :
    s.tlbFn = none ∧ (∀ t, s.made t = []) ∧ ∀ t, s.ran t = [] := by
  induction hs with
  | init => exact ⟨rfl, fun _ => rfl, fun _ => rfl⟩
  | step _ hok hstep ih =>
    obtain ⟨hran, hrest⟩ := HartState.step_records hstep
    obtain ⟨htlb, hmade⟩ := hrest hok
    obtain ⟨hnone, hno, hidle⟩ := ih
    refine ⟨htlb.trans hnone, fun t => (congrFun hmade t).trans (hno t), fun t => ?_⟩
    refine List.eq_nil_iff_forall_not_mem.mpr fun r hr => ?_
    rcases hran t r hr with hold | ⟨_, hf⟩
    · rw [hidle t] at hold
      cases hold
    · cases hnone.symm.trans hf

/-- No call is ever delivered: when its target is quiet, it has not run, or the handling of
`IPI_TLB_SHOOTDOWN` has run it. -/
theorem hart_call_not_delivered (hs : HartRun m null ok s) {t : Nat} (hq : s.Quiet m t)
    (hmade : s.made t ≠ []) : ¬ Delivered s.made s.ran (s.Quiet m) := by
  rintro ⟨hperm, hvec⟩
  have hran : s.ran t ≠ [] := by
    intro hnil
    have hp := hperm t hq
    rw [hnil] at hp
    exact hmade hp.nil_eq.symm
  obtain ⟨r, hr⟩ := List.exists_mem_of_ne_nil _ hran
  exact absurd ((hvec t r hr).symm.trans (hs.ran_vec t r hr)) (by decide)

theorem hart_noCall_delivered (hs : HartRun m null NoCall s) :
    Delivered s.made s.ran (s.Quiet m) := by
  obtain ⟨_, hmade, hran⟩ := hs.noCall
  refine ⟨fun t _ => ?_, fun t r hr => ?_⟩
  · rw [hmade t, hran t]
    exact .nil
  · rw [hran t] at hr
    cases hr

end

/-! ## Both architectures -/

/-- Calls are delivered on AArch64 when each finds the slot of its target empty and its SGI
reaches the target alone; on RISC-V none is. -/
theorem calls_delivered {F A : Type} (h : HostCpus) (m : HartMap) (null : A) :
    (∀ s, SgiRun h null (CallsFree h) s →
      Delivered (F := F) s.made s.ran (s.Quiet h)) ∧
    (∀ s, HartRun m null NoCall s → Delivered (F := F) s.made s.ran (s.Quiet m)) ∧
    ∀ s : HartState F A, HartRun m null (fun _ _ => True) s →
      (∃ t, s.Quiet m t ∧ s.made t ≠ []) → ¬ Delivered s.made s.ran (s.Quiet m) :=
  ⟨fun _ hs => sgi_calls_delivered hs, fun _ hs => hart_noCall_delivered hs,
    fun _ hs ⟨_, hq, hmade⟩ => hart_call_not_delivered hs hq hmade⟩

/-- Two pCPUs in two clusters, so that both have Aff0 = 0. -/
def twoHosts : HostCpus := ⟨2, fun cpu => BitVec.ofNat 64 cpu <<< 8, by decide⟩

/-- The SGI for pCPU 1 up to the end of its handler. -/
def handleCall : List (SgiAction Nat Nat) :=
  .ack 1 ipiCallFunc :: List.replicate 4 (.handle 1)

theorem SgiRun.steps {F A : Type} {h : HostCpus} {null : A}
    {ok : SgiState F A → SgiAction F A → Prop} {s s' : SgiState F A}
    (actions : List (SgiAction F A)) (hs : SgiRun h null ok s)
    (hok : ∀ a ∈ actions, ∀ s, ok s a)
    (hsteps : actions.foldlM (SgiState.step h) s = some s') : SgiRun h null ok s' := by
  induction actions generalizing s with
  | nil => exact Option.some.inj hsteps ▸ hs
  | cons a actions ih =>
    simp only [List.foldlM_cons, Option.bind_eq_bind, Option.bind_eq_some_iff] at hsteps
    obtain ⟨s₁, hstep, hrest⟩ := hsteps
    exact ih (hs.step (hok a List.mem_cons_self s) hstep)
      (fun a ha => hok a (List.mem_cons_of_mem _ ha)) hrest

/-- The call of pCPU 0 to hart 1, the IPI and its handling. -/
def callHart : List (HartAction Nat Nat) :=
  [.call 0 1 7 9, .send 0, .irq 1, .handle 1, .handle 1]

theorem HartRun.steps {F A : Type} {m : HartMap} {null : A} {s s' : HartState F A}
    (actions : List (HartAction F A)) (hs : HartRun m null (fun _ _ => True) s)
    (hsteps : actions.foldlM (HartState.step m null) s = some s') :
    HartRun m null (fun _ _ => True) s' := by
  induction actions generalizing s with
  | nil => exact Option.some.inj hsteps ▸ hs
  | cons a actions ih =>
    simp only [List.foldlM_cons, Option.bind_eq_bind, Option.bind_eq_some_iff] at hsteps
    obtain ⟨s₁, hstep, hrest⟩ := hsteps
    exact ih (hs.step trivial hstep) hrest

theorem twoHosts_reachesOnly : ReachesOnly twoHosts 1 :=
  fun c hc => (by decide : ∀ c < 2, Sched.ListNames (sgirTo (twoHosts.mpidr 1) ipiCallFunc)
    (twoHosts.mpidr c) ↔ c = 1) c hc

/-- A call from pCPU 0 to pCPU 1 on either architecture. -/
theorem calls_delivered_one :
    (∃ s : SgiState Nat Nat, SgiRun twoHosts 0 (CallsFree twoHosts) s ∧
      s.made 1 = [(7, 9)] ∧ Delivered s.made s.ran (s.Quiet twoHosts)) ∧
    (∃ s : HartState Nat Nat, HartRun fourHarts 0 NoCall s ∧
      Delivered s.made s.ran (s.Quiet fourHarts)) ∧
    ∃ s : HartState Nat Nat, HartRun fourHarts 0 (fun _ _ => True) s ∧
      s.made 1 = [(7, 9)] ∧ ¬ Delivered s.made s.ran (s.Quiet fourHarts) := by
  have hinit : SgiRun twoHosts 0 (CallsFree twoHosts) (initSgi 0 : SgiState Nat Nat) := .init
  have hempty : CallsFree twoHosts (initSgi 0 : SgiState Nat Nat) (.call 0 1 7 9) :=
    fun _ _ => ⟨rfl, twoHosts_reachesOnly⟩
  have hcall := hinit.step hempty rfl
  have hfree : ∀ a ∈ [.advance 0, .advance 0] ++ handleCall, ∀ s, CallsFree twoHosts s a := by
    simp [handleCall, CallsFree]
  have hsgi := hcall.steps ([.advance 0, .advance 0] ++ handleCall) hfree rfl
  have hsteps : ∃ s, callHart.foldlM (HartState.step fourHarts 0) initHart = some s ∧
      s.made 1 = [(7, 9)] ∧ s.Quiet fourHarts 1 := by
    refine ⟨_, rfl, rfl, by decide, rfl, rfl, fun c => ?_⟩
    cases c with
    | zero => exact nofun
    | succ c => exact nofun
  obtain ⟨s, hs, hmade, hq⟩ := hsteps
  have hhart := HartRun.init.steps callHart hs
  refine ⟨⟨_, hsgi, rfl, (calls_delivered twoHosts fourHarts 0).1 _ hsgi⟩,
    ⟨_, .init, (calls_delivered twoHosts fourHarts 0).2.1 _ .init⟩,
    ⟨s, hhart, hmade, (calls_delivered twoHosts fourHarts 0).2.2 s hhart ⟨1, hq, ?_⟩⟩⟩
  rw [hmade]
  exact nofun

/-- Two calls from pCPU 0 to pCPU 1: the second overwrites the first. -/
def callTwice : List (SgiAction Nat Nat) :=
  [.call 0 1 7 9, .advance 0, .advance 0, .call 0 1 8 10, .advance 0, .advance 0] ++ handleCall

/-- The first call is lost on AArch64, and on RISC-V the only one is. -/
theorem calls_lost :
    (∃ s : SgiState Nat Nat, SgiRun twoHosts 0 (fun _ _ => True) s ∧
      ¬ Delivered s.made s.ran (s.Quiet twoHosts)) ∧
    ∃ s : HartState Nat Nat, HartRun fourHarts 0 (fun _ _ => True) s ∧
      ¬ Delivered s.made s.ran (s.Quiet fourHarts) := by
  have hsgi : ∃ s, callTwice.foldlM (SgiState.step twoHosts) (initSgi 0) = some s ∧
      (s.made 1).length = 2 ∧ (s.ran 1).length = 1 ∧ s.Quiet twoHosts 1 := by
    refine ⟨_, rfl, rfl, rfl, by decide, rfl, rfl, fun c => ?_⟩
    cases c with
    | zero => exact nofun
    | succ c => exact nofun
  have hhart : ∃ s, callHart.foldlM (HartState.step fourHarts 0) initHart = some s ∧
      (s.made 1).length = 1 ∧ (s.ran 1).length = 0 ∧ s.Quiet fourHarts 1 := by
    refine ⟨_, rfl, rfl, rfl, by decide, rfl, rfl, fun c => ?_⟩
    cases c with
    | zero => exact nofun
    | succ c => exact nofun
  obtain ⟨s, hs, hmade, hran, hq⟩ := hsgi
  obtain ⟨x, hx, hmade', hran', hq'⟩ := hhart
  refine ⟨⟨s, SgiRun.init.steps callTwice (fun _ _ _ => trivial) hs, fun hd => ?_⟩,
    ⟨x, HartRun.init.steps callHart hx, fun hd => ?_⟩⟩
  · have hlength := (hd.1 1 hq).length_eq
    rw [List.length_map, hmade, hran] at hlength
    cases hlength
  · have hlength := (hd.1 1 hq').length_eq
    rw [List.length_map, hmade', hran'] at hlength
    cases hlength

end HyperCore.Ipi
