import HyperCore.Lib.Trace
import HyperCore.Vplic.Lines

/-!
# `hvip` and the images

The harts run side by side: an assert or a clear may come from any hart, while only the hart that
runs a vCPU writes its `hvip`. What a hart does between two instructions of its guest is a list of
`Move`s: a trap, updates of images, `__vcpu_switch` in its three parts, the soft interrupt's
rewrite of `hvip`, and the entry. The guest itself sets and clears `sip.SSIP`, which is
`hvip.VSSIP`.

Results:
1. `vcpuSwitch_moves`, `handleSSoftIrq_moves`: the functions of the source are such lists.
2. `hvip_projects`: at every entry `hvip` agrees with the image iff the changes of each bit that the
   hart has not seen since it last wrote it are even in number.
3. `soft_delivered_once`: an acknowledged soft interrupt comes again iff `hvip` is written from an
   image that `clear_ipi` has not cleared.
-/

namespace HyperCore.Vplic

open Sched

/-! ## Moves -/

/-- Where a hart is: in its guest, in a trap handler, or in `__vcpu_switch`. -/
inductive Phase
  | guest | host | switching
deriving DecidableEq

structure Harts where
  virqs : Virqs
  current : Cpu → Option TaskId
  phase : Cpu → Phase

inductive Move
  | assert (t : TaskId) (irq : Nat)
  | clear (t : TaskId) (irq : Nat)
  | save
  | setCurrent (t : TaskId)
  | materialize
  | enter
  | trap
  | writeSip (ssip : Bool)

/-- `riscv_virt_irq_materialize_current` -/
def materializeCurrent (v : Virqs) (c : Cpu) (current : Option TaskId) : Virqs :=
  match current with
  | none => v
  | some t => riscvVirtIrqMaterialize v c current t

/-- The guest's write of `sip.SSIP`, which `hideleg` makes an alias of `hvip.VSSIP`. -/
def Virqs.writeSip (v : Virqs) (c : Cpu) (ssip : Bool) : Virqs :=
  let bit := riscvVirtIrqBit irqVsSoft
  let value := if ssip then v.hvip c ||| bit else v.hvip c &&& ~~~bit
  { v with hvip := Function.update v.hvip c value }

def Harts.goTo (s : Harts) (c : Cpu) (p : Phase) : Harts :=
  { s with phase := Function.update s.phase c p }

/-- Updates of images and writes of `hvip` are made in the trap handler; its entry is past every
switch. -/
def Harts.allows (s : Harts) (c : Cpu) : Move → Bool
  | .assert _ _ | .clear _ _ | .materialize => s.phase c != .guest
  | .save => s.phase c == .host
  | .setCurrent _ => s.phase c == .switching
  | .enter => s.phase c == .host && (s.current c).isSome
  | .trap | .writeSip _ => s.phase c == .guest

/-- What a move of hart `c` does. -/
def Harts.after (s : Harts) (c : Cpu) : Move → Harts
  | .assert t irq => { s with virqs := riscvVirtIrqAssert s.virqs c (s.current c) t irq }
  | .clear t irq => { s with virqs := riscvVirtIrqClear s.virqs c (s.current c) t irq }
  | .save => { s with virqs := s.virqs.clearHvip c }.goTo c .switching
  | .setCurrent t => { s with current := Function.update s.current c (some t) }
  | .materialize => { s with virqs := materializeCurrent s.virqs c (s.current c) }.goTo c .host
  | .enter => s.goTo c .guest
  | .trap => s.goTo c .host
  | .writeSip ssip => { s with virqs := s.virqs.writeSip c ssip }

def Harts.step (s : Harts) (c : Cpu) (m : Move) : Option Harts :=
  if s.allows c m then some (s.after c m) else none

/-- No interrupt is pending and no vCPU has run. -/
def initHarts : Harts where
  virqs := ⟨fun _ => 0, fun _ => 0⟩
  current := fun _ => none
  phase := fun _ => .host

/-! ## What a run has seen -/

/-- Counted for each hart and bit: the changes of its vCPU's image by other harts, and of its
`hvip` by its guest, since the hart last wrote the bit in both or `hvip` from the image. And for
each vCPU: the guest has acknowledged VSSIP since the last `send_ipi` to it; the last call that
touched its VSSIP was a `send_ipi`. -/
structure History where
  unseen : Cpu → Nat → Nat
  acked : TaskId → Bool
  sent : TaskId → Bool

def initHistory : History := ⟨fun _ _ => 0, fun _ => false, fun _ => false⟩

/-- `unseen` after hart `c` has made bit `irq` of the image of `t` be `on`. -/
def History.missed (g : History) (s : Harts) (c : Cpu) (t : TaskId) (irq : Nat) (on : Bool) :
    Cpu → Nat → Nat :=
  fun h j =>
    if j = irq ∧ s.current h = some t then
      if h = c then 0
      else if (s.virqs.image t).getLsbD irq = on then g.unseen h j else g.unseen h j + 1
    else g.unseen h j

/-- `send_ipi` asserts VSSIP and `clear_ipi` clears it; nothing else in the source touches it. -/
def History.next (g : History) (s : Harts) (c : Cpu) : Move → History
  | .assert t irq =>
    { unseen := g.missed s c t irq true
      acked := if irq = irqVsSoft then Function.update g.acked t false else g.acked
      sent := if irq = irqVsSoft then Function.update g.sent t true else g.sent }
  | .clear t irq =>
    { g with
      unseen := g.missed s c t irq false
      sent := if irq = irqVsSoft then Function.update g.sent t false else g.sent }
  | .materialize => { g with unseen := Function.update g.unseen c fun _ => 0 }
  | .writeSip ssip =>
    let was := (s.virqs.hvip c).getLsbD irqVsSoft
    { g with
      unseen := fun h j =>
        if h = c ∧ j = irqVsSoft ∧ was ≠ ssip then g.unseen h j + 1 else g.unseen h j
      acked := fun t =>
        if s.current c = some t ∧ was = true ∧ ssip = false then true else g.acked t }
  | .save | .setCurrent _ | .enter | .trap => g

structure Watched where
  harts : Harts
  history : History

def Watched.step (s : Watched) (e : Cpu × Move) : Option Watched :=
  (s.harts.step e.1 e.2).map fun harts => ⟨harts, s.history.next s.harts e.1 e.2⟩

def initWatched : Watched := ⟨initHarts, initHistory⟩

/-! ## The functions of the source as moves -/

/-- The part of `handle_s_soft_irq` after its IPIs, which touch no image. -/
def handleSSoftIrq (s : Machine) (c : Cpu) : Option Machine := do
  let s ← riscvVplicRefresh s c
  pure { s with virqs := materializeCurrent s.virqs c (s.sys.currentTask c) }

def Machine.harts (s : Machine) (phase : Cpu → Phase) : Harts := ⟨s.virqs, s.sys.currentTask, phase⟩

/-- What one hart's moves lead to. -/
def Moves (c : Cpu) (s s' : Harts) : Prop :=
  ∃ ms, Trace.run (fun s m => Harts.step s c m) s ms = some s'

theorem Moves.refl {c : Cpu} (s : Harts) : Moves c s s := ⟨[], rfl⟩

theorem Moves.trans {c : Cpu} {s s' s'' : Harts} (h : Moves c s s') (h' : Moves c s' s'') :
    Moves c s s'' := by
  obtain ⟨ms, hms⟩ := h
  obtain ⟨ms', hms'⟩ := h'
  exact ⟨ms ++ ms', (Trace.run_append hms).trans hms'⟩

theorem Moves.step {c : Cpu} {s : Harts} (m : Move) (h : s.allows c m = true) :
    Moves c s (s.after c m) :=
  ⟨[m], Trace.run_cons (if_pos h)⟩

section

variable {s s' : Machine} {c : Cpu} {phase : Cpu → Phase}

theorem vplicSetTaskVseip_moves (hphase : phase c ≠ .guest) (task : Option TaskId)
    (asserted : Bool) :
    Moves c (s.harts phase) ((vplicSetTaskVseip s c task asserted).harts phase) := by
  cases task with
  | none => exact .refl _
  | some t =>
    cases asserted with
    | true => exact .step (.assert t irqVsExt) (bne_iff_ne.mpr hphase)
    | false => exact .step (.clear t irqVsExt) (bne_iff_ne.mpr hphase)

/-- A call into the PLIC drives its lines by moves of the hart that makes it. -/
theorem driveFrom_moves (hphase : phase c ≠ .guest) {asserted : List Bool} {context : Nat}
    (h : driveFrom s c context asserted = some s') :
    Moves c (s.harts phase) (s'.harts phase) := by
  induction asserted generalizing s context with
  | nil =>
    cases h
    exact .refl _
  | cons a rest ih =>
    simp only [driveFrom, Option.bind_eq_bind, Option.bind_eq_some_iff] at h
    obtain ⟨task, -, hrest⟩ := h
    exact (vplicSetTaskVseip_moves hphase task a).trans (ih hrest)

theorem riscvTimerRefresh_moves (hphase : phase c ≠ .guest) (t : TaskId) (now : BitVec 64) :
    Moves c (s.harts phase) ((riscvTimerRefresh s c t now).harts phase) := by
  unfold riscvTimerRefresh
  split
  · exact .refl _
  split
  · exact .refl _
  · exact .step (.assert t irqVsTimer) (bne_iff_ne.mpr hphase)

theorem riscvVplicRefresh_moves (hphase : phase c ≠ .guest) (h : riscvVplicRefresh s c = some s') :
    Moves c (s.harts phase) (s'.harts phase) ∧ s'.sys = s.sys := by
  unfold riscvVplicRefresh at h
  split at h
  · cases h
    exact ⟨.refl _, rfl⟩
  · next t _ =>
    simp only [Option.bind_eq_bind, Option.bind_eq_some_iff, Option.pure_def, Option.some.injEq] at h
    obtain ⟨x, -, rfl⟩ := h
    exact ⟨vplicSetTaskVseip_moves hphase _ _, vplicSetTaskVseip_sys _ _⟩

theorem materializeCurrent_moves (hphase : phase c ≠ .guest) :
    Moves c (s.harts phase)
      ({ s with virqs := materializeCurrent s.virqs c (s.sys.currentTask c) }.harts
        (Function.update phase c .host)) :=
  .step .materialize (bne_iff_ne.mpr hphase)

/-- `__vcpu_switch` as moves of its hart, which is back in its trap handler after it. -/
theorem vcpuSwitch_moves (hphase : phase c = .host) {next : TaskId} {now : BitVec 64}
    (h : vcpuSwitch s c next now = some s') : Moves c (s.harts phase) (s'.harts phase) := by
  simp only [vcpuSwitch, Option.bind_eq_bind, Option.bind_eq_some_iff, Option.pure_def,
    Option.some.injEq] at h
  obtain ⟨s₃, hrefresh, rfl⟩ := h
  let within := Function.update phase c .switching
  have hwithin : within c ≠ .guest := by simp [within]
  have hback : Function.update within c .host = phase := by
    rw [Function.update_idem, ← hphase, Function.update_eq_self]
  let s₁ : Machine := { s with virqs := s.virqs.clearHvip c }
  let s₂ : Machine := { s₁ with sys := setCurrent s₁.sys c (some next) }
  have hsave : Moves c (s.harts phase) (s₁.harts within) := .step .save (beq_iff_eq.mpr hphase)
  have hset : Moves c (s₁.harts within) (s₂.harts within) :=
    .step (.setCurrent next) (beq_iff_eq.mpr (Function.update_self ..))
  have htimer := riscvTimerRefresh_moves (s := s₂) hwithin next now
  obtain ⟨hplic, hsys⟩ := riscvVplicRefresh_moves hwithin hrefresh
  have hcur : s₃.sys.currentTask c = some next := by
    rw [hsys, (riscvTimerRefresh_frame (u := next) now).1]
    exact Function.update_self ..
  have hwrite := materializeCurrent_moves (s := s₃) hwithin
  rw [hback, hcur, materializeCurrent] at hwrite
  rw [hcur]
  exact hsave.trans (hset.trans (htimer.trans (hplic.trans hwrite)))

/-- The soft interrupt's rewrite of `hvip` as moves of its hart. -/
theorem handleSSoftIrq_moves (hphase : phase c = .host) (h : handleSSoftIrq s c = some s') :
    Moves c (s.harts phase) (s'.harts phase) := by
  have hguest : phase c ≠ .guest := by rw [hphase]; decide
  simp only [handleSSoftIrq, Option.bind_eq_bind, Option.bind_eq_some_iff, Option.pure_def,
    Option.some.injEq] at h
  obtain ⟨s₁, hrefresh, rfl⟩ := h
  have hwrite := materializeCurrent_moves (s := s₁) hguest
  rw [← hphase, Function.update_eq_self] at hwrite
  exact (riscvVplicRefresh_moves hguest hrefresh).1.trans hwrite

end

/-! ## What a move writes -/

/-- `v'` is `v` with bit `irq` of the image of `t` made `on` by hart `c`. -/
structure Writes (v v' : Virqs) (c : Cpu) (current : Option TaskId) (t : TaskId) (irq : Nat)
    (on : Bool) : Prop where
  image : ∀ u j, j < 64 →
    (v'.image u).getLsbD j = if u = t ∧ j = irq then on else (v.image u).getLsbD j
  hvip : ∀ h j, j < 64 → (v'.hvip h).getLsbD j =
    if h = c ∧ current = some t ∧ j = irq then on else (v.hvip h).getLsbD j

/-- An irq from 64 on writes nothing. -/
theorem Writes.none {v : Virqs} {c : Cpu} {current : Option TaskId} {t : TaskId} {irq : Nat}
    {on : Bool} (h : 64 ≤ irq) : Writes v v c current t irq on := by
  refine ⟨fun u j hj => ?_, fun h' j hj => ?_⟩
  · rw [if_neg]
    rintro ⟨-, rfl⟩
    exact absurd h (Nat.not_le.mpr hj)
  · rw [if_neg]
    rintro ⟨-, -, rfl⟩
    exact absurd h (Nat.not_le.mpr hj)

theorem update_hvip (v : Virqs) (c h : Cpu) (current : Option TaskId) (t : TaskId)
    (f : BitVec 64 → BitVec 64) :
    (v.update c current t f).hvip h = if h = c ∧ current = some t then f (v.hvip c) else v.hvip h := by
  simp only [Virqs.update]
  by_cases hcur : current = some t
  · simp [hcur, Function.update_apply]
  · simp [hcur]

theorem assert_writes (v : Virqs) (c : Cpu) (current : Option TaskId) (t : TaskId) (irq : Nat) :
    Writes v (riscvVirtIrqAssert v c current t irq) c current t irq true := by
  by_cases hirq : irq < 64
  · refine ⟨fun u j _ => assert_image hirq, fun h j _ => ?_⟩
    rw [riscvVirtIrqAssert, if_neg (riscvVirtIrqBit_ne_zero hirq), update_hvip]
    by_cases hown : h = c ∧ current = some t
    · rw [if_pos hown, getLsbD_set hirq, hown.1]
      simp [hown.2]
    · rw [if_neg hown, if_neg fun h => hown ⟨h.1, h.2.1⟩]
  · rw [riscvVirtIrqAssert, riscvVirtIrqBit, if_pos (Nat.not_lt.mp hirq), if_pos rfl]
    exact .none (Nat.not_lt.mp hirq)

theorem clear_writes (v : Virqs) (c : Cpu) (current : Option TaskId) (t : TaskId) (irq : Nat) :
    Writes v (riscvVirtIrqClear v c current t irq) c current t irq false := by
  by_cases hirq : irq < 64
  · refine ⟨fun u j hj => clear_image hirq hj, fun h j hj => ?_⟩
    rw [riscvVirtIrqClear, if_neg (riscvVirtIrqBit_ne_zero hirq), update_hvip]
    by_cases hown : h = c ∧ current = some t
    · rw [if_pos hown, getLsbD_clear hirq _ hj, hown.1]
      simp [hown.2]
    · rw [if_neg hown, if_neg fun h => hown ⟨h.1, h.2.1⟩]
  · rw [riscvVirtIrqClear, riscvVirtIrqBit, if_pos (Nat.not_lt.mp hirq), if_pos rfl]
    exact .none (Nat.not_lt.mp hirq)

theorem writeSip_hvip (v : Virqs) (c h : Cpu) (ssip : Bool) {j : Nat} (hj : j < 64) :
    ((v.writeSip c ssip).hvip h).getLsbD j =
      if h = c ∧ j = irqVsSoft then ssip else (v.hvip h).getLsbD j := by
  have hirq : irqVsSoft < 64 := by decide
  simp only [Virqs.writeSip, Function.update_apply]
  by_cases hh : h = c
  · cases ssip with
    | true => simp only [hh, if_true, getLsbD_set hirq, true_and]
    | false => simp [hh, getLsbD_clear hirq _ hj]
  · simp [hh]

theorem materializeCurrent_image (v : Virqs) (c : Cpu) (current : Option TaskId) :
    (materializeCurrent v c current).image = v.image := by
  cases current with
  | none => rfl
  | some t => exact materialize_image

theorem materializeCurrent_hvip (v : Virqs) (c h : Cpu) (current : Option TaskId) :
    (materializeCurrent v c current).hvip h =
      if h = c then current.elim (v.hvip h) v.image else v.hvip h := by
  cases current with
  | none => simp [materializeCurrent]
  | some t => simp [materializeCurrent, riscvVirtIrqMaterialize, Function.update_apply]

/-! ## `hvip` at an entry -/

/-- Outside a switch `hvip` differs from the image in the bits that changed unseen an odd number
of times. -/
def Watched.Projected (s : Watched) : Prop :=
  ∀ h t, s.harts.current h = some t → s.harts.phase h ≠ .switching → ∀ j, j < 64 →
    ((s.harts.virqs.hvip h).getLsbD j = (s.harts.virqs.image t).getLsbD j ↔
      Even (s.history.unseen h j))

theorem bool_eq_iff_not {a b b' : Bool} (h : b' ≠ b) : a = b ↔ ¬ a = b' := by
  cases a <;> cases b <;> cases b' <;> simp_all

theorem Watched.Projected.write {s : Watched} {c : Cpu} {t : TaskId} {irq : Nat} {on : Bool}
    {v : Virqs} {g : History} (hp : s.Projected)
    (hw : Writes s.harts.virqs v c (s.harts.current c) t irq on)
    (hg : g.unseen = s.history.missed s.harts c t irq on) :
    Watched.Projected ⟨{ s.harts with virqs := v }, g⟩ := by
  intro h u hcur hphase j hj
  change s.harts.current h = some u at hcur
  have hold := hp h u hcur hphase j hj
  simp only [hw.hvip h j hj, hw.image u j hj, hg, History.missed]
  by_cases hirq : j = irq
  · subst hirq
    by_cases hut : u = t
    · subst hut
      simp only [and_true, hcur]
      by_cases hc : h = c
      · subst hc
        simp [hcur]
      · simp only [hc, false_and, if_false, if_true]
        split
        · next hsame => rw [← hold, hsame]
        · next hchange => rw [Nat.even_add_one, ← hold, bool_eq_iff_not hchange]
    · have hother : s.harts.current h ≠ some t := by
        rw [hcur]
        exact fun he => hut (Option.some.inj he)
      have hnot : ¬ (h = c ∧ s.harts.current c = some t ∧ True) := by
        rintro ⟨rfl, hc, -⟩
        exact hother hc
      simp only [true_and, and_true, hut, hother, if_false]
      rw [if_neg fun hc => hnot ⟨hc.1, hc.2, trivial⟩]
      exact hold
  · simp only [hirq, and_false, false_and, if_false]
    exact hold

theorem Watched.step_some {s s' : Watched} {c : Cpu} {m : Move} (h : s.step (c, m) = some s') :
    s.harts.allows c m = true ∧
      s' = ⟨s.harts.after c m, s.history.next s.harts c m⟩ := by
  rw [Watched.step, Harts.step, Option.map_eq_some_iff] at h
  obtain ⟨harts, hstep, rfl⟩ := h
  rw [Option.ite_none_right_eq_some] at hstep
  obtain ⟨hallows, hafter⟩ := hstep
  cases hafter
  exact ⟨hallows, rfl⟩

/-- Hart `c` changes its phase only. -/
theorem Watched.Projected.goTo {s : Watched} {c : Cpu} (hp : s.Projected) {p : Phase}
    (hc : s.harts.phase c ≠ .switching) : Watched.Projected ⟨s.harts.goTo c p, s.history⟩ := by
  intro h t hcur hphase j hj
  by_cases hh : h = c
  · subst hh
    exact hp h t hcur hc j hj
  · refine hp h t hcur ?_ j hj
    simpa [Harts.goTo, hh] using hphase

theorem Watched.Projected.step {s s' : Watched} {e : Cpu × Move} (hp : s.Projected)
    (h : s.step e = some s') : s'.Projected := by
  obtain ⟨c, m⟩ := e
  obtain ⟨hallows, rfl⟩ := Watched.step_some h
  cases m with
  | assert t irq => exact hp.write (assert_writes ..) rfl
  | clear t irq => exact hp.write (clear_writes ..) rfl
  | save =>
    intro h t hcur hphase j hj
    by_cases hh : h = c
    · simp [Harts.after, Harts.goTo, hh] at hphase
    · simp only [Harts.after, Harts.goTo, Function.update_of_ne hh] at hphase
      simp only [Harts.after, Harts.goTo, Virqs.clearHvip, Function.update_of_ne hh]
      exact hp h t hcur hphase j hj
  | setCurrent t =>
    intro h u hcur hphase j hj
    by_cases hh : h = c
    · subst hh
      exact absurd (beq_iff_eq.mp hallows) hphase
    · simp only [Harts.after, Function.update_of_ne hh] at hcur
      exact hp h u hcur hphase j hj
  | materialize =>
    intro h t hcur hphase j hj
    change s.harts.current h = some t at hcur
    simp only [Harts.after, Harts.goTo, materializeCurrent_hvip, materializeCurrent_image,
      History.next]
    by_cases hh : h = c
    · subst hh
      simp [hcur]
    · simp only [Harts.after, Harts.goTo, Function.update_of_ne hh] at hphase
      simp only [hh, if_false, Function.update_of_ne hh]
      exact hp h t hcur hphase j hj
  | enter =>
    simp only [Harts.allows, Bool.and_eq_true, beq_iff_eq] at hallows
    exact hp.goTo (by rw [hallows.1]; decide)
  | trap =>
    simp only [Harts.allows, beq_iff_eq] at hallows
    exact hp.goTo (by rw [hallows]; decide)
  | writeSip ssip =>
    intro h t hcur hphase j hj
    have hold := hp h t hcur hphase j hj
    simp only [Harts.after, writeSip_hvip _ _ _ _ hj, History.next]
    by_cases hown : h = c ∧ j = irqVsSoft
    · obtain ⟨rfl, rfl⟩ := hown
      simp only [and_self, if_true, true_and, Virqs.writeSip]
      split
      · next hchange =>
        rw [Nat.even_add_one, ← hold, @eq_comm _ ssip, bool_eq_iff_not hchange]
        exact ne_comm
      · next hsame => rw [← hold, not_not.mp hsame]
    · rw [if_neg hown, if_neg fun hc => hown ⟨hc.1, hc.2.1⟩]
      exact hold

/-- The three bits that the guest sees. -/
def guestVirqs : List Nat := [irqVsSoft, irqVsTimer, irqVsExt]

/-- An entry finds `hvip` equal to the image of the vCPU entered. -/
def Watched.Projects (s : Watched) (e : Cpu × Move) : Prop :=
  e.2 = .enter → ∀ t, s.harts.current e.1 = some t → ∀ irq ∈ guestVirqs,
    (s.harts.virqs.hvip e.1).getLsbD irq = (s.harts.virqs.image t).getLsbD irq

/-- An entry finds that each bit changed unseen an even number of times, such as never. -/
def Watched.UpToDate (s : Watched) (e : Cpu × Move) : Prop :=
  e.2 = .enter → ∀ irq ∈ guestVirqs, Even (s.history.unseen e.1 irq)

theorem hvip_projects (es : List (Cpu × Move)) :
    Trace.Always Watched.step Watched.Projects initWatched es ↔
      Trace.Always Watched.step Watched.UpToDate initWatched es := by
  refine Trace.Always.congr (I := Watched.Projected) (fun s e s' hp => hp.step) (fun s e s' hp h => ?_) ?_ es
  · obtain ⟨c, m⟩ := e
    obtain ⟨hallows, -⟩ := Watched.step_some h
    refine forall_congr' fun (hm : m = .enter) => ?_
    subst hm
    simp only [Harts.allows, Bool.and_eq_true, beq_iff_eq] at hallows
    obtain ⟨hhost, hsome⟩ := hallows
    obtain ⟨t, ht⟩ := Option.isSome_iff_exists.mp hsome
    have hbits (irq : Nat) (hirq : irq ∈ guestVirqs) := hp c t ht (by rw [hhost]; decide) irq
      (by revert irq; decide)
    constructor
    · intro hall irq hirq
      exact (hbits irq hirq).1 (hall t ht irq hirq)
    · intro heven u hu irq hirq
      rw [ht] at hu
      cases hu
      exact (hbits irq hirq).2 (heven irq hirq)
  · intro h t hcur
    cases hcur

/-- Hart 0 runs a vCPU, is told of an external interrupt and traps; hart 1 withdraws it. -/
def withdrawn : List (Cpu × Move) :=
  [(0, .save), (0, .setCurrent 0), (0, .materialize), (1, .assert 0 irqVsExt), (0, .materialize),
    (0, .enter), (0, .trap), (1, .clear 0 irqVsExt)]

theorem withdrawn_presented : ¬ ∀ es, Trace.Always Watched.step Watched.Projects initWatched es := by
  intro h
  have hentry := (h (withdrawn ++ [(0, .enter)])).reached rfl rfl rfl 0 rfl irqVsExt (by decide)
  exact absurd hentry (by decide)

/-! ## Delivery of a soft interrupt -/

/-- `sent` is the image's VSSIP. -/
def Watched.Tracked (s : Watched) : Prop :=
  ∀ t, (s.harts.virqs.image t).getLsbD irqVsSoft = s.history.sent t

/-- No move of the hypervisor sets `hvip.VSSIP` for a vCPU that has acknowledged it. -/
def Watched.DeliversOnce (s : Watched) (e : Cpu × Move) : Prop :=
  (∀ ssip, e.2 ≠ .writeSip ssip) → ∀ s', s.step e = some s' → ∀ h t,
    s'.harts.current h = some t → s'.history.acked t = true →
    (s.harts.virqs.hvip h).getLsbD irqVsSoft = false →
    (s'.harts.virqs.hvip h).getLsbD irqVsSoft = false

/-- Where `hvip` is written from the image of a vCPU that has acknowledged its soft interrupt,
`clear_ipi` has cleared the image since the last `send_ipi`. -/
def Watched.Reconciled (s : Watched) (e : Cpu × Move) : Prop :=
  e.2 = .materialize → ∀ t, s.harts.current e.1 = some t → s.history.acked t = true →
    (s.harts.virqs.hvip e.1).getLsbD irqVsSoft = false → s.history.sent t = false

theorem Watched.Tracked.step {s s' : Watched} {e : Cpu × Move} (ht : s.Tracked)
    (h : s.step e = some s') : s'.Tracked := by
  obtain ⟨c, m⟩ := e
  obtain ⟨-, rfl⟩ := Watched.step_some h
  intro u
  cases m with
  | assert t irq =>
    simp only [Harts.after, (assert_writes ..).image u irqVsSoft (by decide), History.next]
    by_cases hirq : irq = irqVsSoft
    · subst hirq
      simp [Function.update_apply, ht u]
    · simp [hirq, Ne.symm hirq, ht u]
  | clear t irq =>
    simp only [Harts.after, (clear_writes ..).image u irqVsSoft (by decide), History.next]
    by_cases hirq : irq = irqVsSoft
    · subst hirq
      simp [Function.update_apply, ht u]
    · simp [hirq, Ne.symm hirq, ht u]
  | materialize =>
    simp only [Harts.after, Harts.goTo, materializeCurrent_image, History.next]
    exact ht u
  | save => exact ht u
  | setCurrent t => exact ht u
  | enter => exact ht u
  | trap => exact ht u
  | writeSip ssip => exact ht u

/-- Only a write of `hvip` from the image can set VSSIP of a vCPU that has acknowledged it. -/
theorem deliversOnce_of_ne {s : Watched} {c : Cpu} {m : Move} (hm : m ≠ .materialize) :
    s.DeliversOnce (c, m) := by
  intro hguest s' hstep h t hcur hacked hold
  obtain ⟨-, rfl⟩ := Watched.step_some hstep
  cases m with
  | assert u irq =>
    simp only [Harts.after, (assert_writes ..).hvip h irqVsSoft (by decide)]
    split
    · next hown =>
      obtain ⟨rfl, hu, rfl⟩ := hown
      change s.harts.current h = some t at hcur
      rw [hcur] at hu
      cases hu
      simp [History.next] at hacked
    · exact hold
  | clear u irq =>
    simp only [Harts.after, (clear_writes ..).hvip h irqVsSoft (by decide)]
    split
    · rfl
    · exact hold
  | save =>
    simp only [Harts.after, Harts.goTo, Virqs.clearHvip, Function.update_apply]
    split
    · rfl
    · exact hold
  | setCurrent u => exact hold
  | materialize => exact absurd rfl hm
  | enter => exact hold
  | trap => exact hold
  | writeSip ssip => exact absurd rfl (hguest ssip)

theorem deliversOnce_materialize {s s' : Watched} {c : Cpu} (ht : s.Tracked)
    (hstep : s.step (c, .materialize) = some s') :
    s.DeliversOnce (c, .materialize) ↔ s.Reconciled (c, .materialize) := by
  obtain ⟨-, rfl⟩ := Watched.step_some hstep
  constructor
  · intro hd _ t hcur hacked hold
    have hnew := hd (by simp) _ hstep c t hcur hacked hold
    simp only [Harts.after, Harts.goTo, materializeCurrent_hvip, if_true, hcur] at hnew
    rw [← ht t]
    exact hnew
  · intro hr _ s' hstep' h t hcur hacked hold
    rw [hstep'] at hstep
    cases hstep
    change s.harts.current h = some t at hcur
    simp only [Harts.after, Harts.goTo, materializeCurrent_hvip]
    split
    · next hh =>
      subst hh
      rw [hcur, Option.elim_some, ht t]
      exact hr rfl t hcur hacked hold
    · exact hold

theorem soft_delivered_once (es : List (Cpu × Move)) :
    Trace.Always Watched.step Watched.DeliversOnce initWatched es ↔
      Trace.Always Watched.step Watched.Reconciled initWatched es := by
  have hinit : initWatched.Tracked := fun t => by
    show (0#64).getLsbD irqVsSoft = false
    decide
  refine Trace.Always.congr (I := Watched.Tracked) (fun s e s' ht => ht.step)
    (fun s e s' ht h => ?_) hinit es
  obtain ⟨c, m⟩ := e
  by_cases hm : m = .materialize
  · subst hm
    exact deliversOnce_materialize ht h
  · exact iff_of_true (deliversOnce_of_ne hm) fun he => absurd he hm

/-- Hart 0 runs a vCPU that hart 1 sends an IPI; the guest takes it and clears `sip.SSIP`, and traps
on another soft interrupt. -/
def acknowledged : List (Cpu × Move) :=
  [(0, .save), (0, .setCurrent 0), (0, .materialize), (1, .assert 0 irqVsSoft), (0, .materialize),
    (0, .enter), (0, .writeSip false), (0, .trap)]

theorem acknowledged_again :
    ¬ ∀ es, Trace.Always Watched.step Watched.DeliversOnce initWatched es := by
  intro h
  have hagain := (h (acknowledged ++ [(0, .materialize)])).reached rfl rfl (by simp) _ rfl 0 0 rfl
    (by decide) (by decide)
  exact absurd hagain (by decide)

end HyperCore.Vplic
