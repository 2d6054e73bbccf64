import HyperCore.Lib.RingFifo

/-!
# `log.c`: the ring buffer and its flush

Each character of the log goes to the ring, to the UART or to both, as the output mode says. The
ring keeps the last `LOG_BUF_SIZE - 1` characters and counts those it drops in a `uint32_t` that is
never reset. `log_flush` prints a banner when the counter is not 0 and then empties the ring to the
UART. The banner goes through `log_putchar`, hence by the output mode, and behind what the ring
retains.

`Queue` is the log without the ring: a list of the last characters and the number of dropped ones.
-/

namespace HyperCore.Log

open RingFifo

/-! ## The code -/

/-- `LOG_BUF_SIZE` -/
def logBufSize : Nat := 2 ^ 16

theorem logBufSize_pos : 0 < logBufSize := Nat.two_pow_pos 16

/-- `log_buf` -/
structure LogBuf where
  data : Nat → BitVec 8
  head : Nat
  tail : Nat
  overflow : BitVec 32
  head_lt : head < logBufSize
  tail_lt : tail < logBufSize

/-- `buf_write` -/
def bufWrite (b : LogBuf) (ch : BitVec 8) : LogBuf :=
  let next := (b.head + 1) % logBufSize
  -- a full buffer drops its oldest character
  let b' : LogBuf := if next = b.tail then
    { b with
      tail := (b.tail + 1) % logBufSize
      overflow := b.overflow + 1
      tail_lt := Nat.mod_lt _ logBufSize_pos }
    else b
  { b' with
    data := Function.update b'.data b.head ch
    head := next
    head_lt := Nat.mod_lt _ logBufSize_pos }

/-- `buf_empty` -/
def bufEmpty (b : LogBuf) : Bool := b.head == b.tail

/-- `buf_read` -/
def bufRead (b : LogBuf) : BitVec 8 × LogBuf :=
  if b.head = b.tail then (0, b)
  else (b.data b.tail,
    { b with tail := (b.tail + 1) % logBufSize, tail_lt := Nat.mod_lt _ logBufSize_pos })

/-- The log and what the UART was sent. -/
structure State where
  buf : LogBuf
  /-- `g_log_output` -/
  output : BitVec 32
  uart : List (BitVec 8)

/-- `LOG_OUTPUT_UART` and `LOG_OUTPUT_BUF` -/
def logOutputUart : BitVec 32 := 1
def logOutputBuf : BitVec 32 := 2

/-- `arch_putchar` -/
def archPutchar (s : State) (ch : BitVec 8) : State := { s with uart := s.uart ++ [ch] }

/-- `log_putchar` -/
def logPutchar (s : State) (ch : BitVec 8) : State :=
  let s := if s.output &&& logOutputBuf ≠ 0 then { s with buf := bufWrite s.buf ch } else s
  if s.output &&& logOutputUart ≠ 0 then archPutchar s ch else s

/-- `log_set_output` -/
def logSetOutput (s : State) (mode : BitVec 32) : State := { s with output := mode }

/-- `_out_char` -/
def outChar (s : State) (ch : BitVec 8) : State := if ch = 0 then s else logPutchar s ch

/-- The digits that `_ntoa_long` writes for base 10, the last one first; `PRINTF_NTOA_BUFFER_SIZE`
bounds their number. -/
def ntoaLong : Nat → Nat → List (BitVec 8)
  | 0, _ => []
  | room + 1, value =>
    BitVec.ofNat 8 (48 + value % 10) :: if value / 10 = 0 then [] else ntoaLong room (value / 10)

/-- The characters of a literal. -/
def chars (text : String) : List (BitVec 8) := text.toList.map fun c => BitVec.ofNat 8 c.toNat

/-- What `printf_` sends to its output function for the format of `log_flush`. -/
def bannerText (dropped : Nat) : List (BitVec 8) :=
  chars "\n--- " ++ (ntoaLong 32 dropped).reverse ++ chars " log chars dropped ---\n"

/-- `safe_printf`, from the text on. -/
def safePrintf (s : State) (text : List (BitVec 8)) : State := text.foldl outChar s

/-- The characters in the ring. -/
def LogBuf.used (b : LogBuf) : Nat := (b.head + logBufSize - b.tail) % logBufSize

theorem used_bufRead {b : LogBuf} (h : bufEmpty b = false) : (bufRead b).2.used + 1 = b.used := by
  have hne : b.head ≠ b.tail := by simpa [bufEmpty] using h
  have hhead := b.head_lt
  have htail := b.tail_lt
  simp only [bufRead, if_neg hne, LogBuf.used, logBufSize] at *
  omega

/-- The `while` loop of `log_flush`. -/
def drain (s : State) : State :=
  if h : bufEmpty s.buf = false then
    drain (archPutchar { s with buf := (bufRead s.buf).2 } (bufRead s.buf).1)
  else s
termination_by s.buf.used
decreasing_by
  change (bufRead s.buf).2.used < s.buf.used
  rw [← used_bufRead h]
  exact Nat.lt_succ_self _

/-- `log_flush` -/
def logFlush (s : State) : State :=
  drain (if s.buf.overflow ≠ 0 then safePrintf s (bannerText s.buf.overflow.toNat) else s)

/-- The static initialisation. -/
def bootLog : State where
  buf := ⟨fun _ => 0, 0, 0, 0, logBufSize_pos, logBufSize_pos⟩
  output := logOutputUart ||| logOutputBuf
  uart := []

/-- A call into `log.c`. -/
inductive Call
  | putchar (ch : BitVec 8)
  | setOutput (mode : BitVec 32)
  | flush

def call (s : State) : Call → State
  | .putchar ch => logPutchar s ch
  | .setOutput mode => logSetOutput s mode
  | .flush => logFlush s

/-- The log after some calls. -/
def run (calls : List Call) : State := calls.foldl call bootLog

/-! ## The log as a queue -/

/-- How many characters the ring can hold. -/
def capacity : Nat := logBufSize - 1

structure Queue where
  kept : List (BitVec 8)
  /-- how many characters were ever dropped -/
  dropped : Nat
  output : BitVec 32
  sent : List (BitVec 8)

/-- A full queue drops its oldest character. -/
def Queue.put (q : Queue) (ch : BitVec 8) : Queue :=
  if q.kept.length < capacity then { q with kept := q.kept ++ [ch] }
  else { q with kept := (q.kept ++ [ch]).tail, dropped := q.dropped + 1 }

def Queue.send (q : Queue) (text : List (BitVec 8)) : Queue := { q with sent := q.sent ++ text }

def Queue.putchar (q : Queue) (ch : BitVec 8) : Queue :=
  let q := if q.output &&& logOutputBuf ≠ 0 then q.put ch else q
  if q.output &&& logOutputUart ≠ 0 then q.send [ch] else q

/-- The counter of the ring. -/
def Queue.counter (q : Queue) : BitVec 32 := BitVec.ofNat 32 q.dropped

def Queue.report (q : Queue) : Queue :=
  if q.counter ≠ 0 then (bannerText q.counter.toNat).foldl Queue.putchar q else q

def Queue.flush (q : Queue) : Queue := { q.report.send q.report.kept with kept := [] }

def Queue.call (q : Queue) : Call → Queue
  | .putchar ch => q.putchar ch
  | .setOutput mode => { q with output := mode }
  | .flush => q.flush

def Queue.run (calls : List Call) : Queue :=
  calls.foldl Queue.call ⟨[], 0, logOutputUart ||| logOutputBuf, []⟩

/-! ## The ring -/

/-- The ring with its count. -/
def LogBuf.fifo (b : LogBuf) : Fifo (BitVec 8) := ⟨b.data, b.head, b.tail, b.used⟩

/-- The characters in the ring, the oldest first. -/
def LogBuf.retained (b : LogBuf) : List (BitVec 8) := toList logBufSize b.fifo

section

variable {b : LogBuf} {s : State} {q : Queue} {ch : BitVec 8}

theorem used_lt (b : LogBuf) : b.used < logBufSize := Nat.mod_lt _ logBufSize_pos

theorem fifo_wf (b : LogBuf) : Wf logBufSize b.fifo := by
  refine ⟨Nat.le_of_lt (used_lt b), b.tail_lt, ?_⟩
  have hhead := b.head_lt
  have htail := b.tail_lt
  unfold LogBuf.fifo LogBuf.used logBufSize at *
  dsimp only
  omega

@[simp] theorem length_retained : b.retained.length = b.used := length_toList

theorem bufEmpty_iff : bufEmpty b = true ↔ b.used = 0 := by
  have hhead := b.head_lt
  have htail := b.tail_lt
  unfold bufEmpty LogBuf.used logBufSize at *
  rw [beq_iff_eq]
  omega

theorem retained_of_empty (h : bufEmpty b = true) : b.retained = [] :=
  toList_eq_nil.mpr (bufEmpty_iff.mp h)

theorem full_iff : (b.head + 1) % logBufSize = b.tail ↔ b.used = capacity := by
  have hhead := b.head_lt
  have htail := b.tail_lt
  unfold LogBuf.used capacity logBufSize at *
  omega

/-- A ring with room takes the character. -/
theorem bufWrite_room (h : ¬ (b.head + 1) % logBufSize = b.tail) :
    (bufWrite b ch).fifo = push logBufSize b.fifo ch ∧ (bufWrite b ch).overflow = b.overflow := by
  have hroom : b.used < capacity :=
    Nat.lt_of_le_of_ne (Nat.le_pred_of_lt (used_lt b)) (full_iff.not.mp h)
  have hused : ((b.head + 1) % logBufSize + logBufSize - b.tail) % logBufSize = b.used + 1 := by
    have hhead := b.head_lt
    have htail := b.tail_lt
    unfold LogBuf.used capacity logBufSize at *
    omega
  simp only [bufWrite, if_neg h, LogBuf.fifo, push, LogBuf.used, hused, and_self]

/-- A full ring takes it in the place of its oldest one. -/
theorem bufWrite_full (h : (b.head + 1) % logBufSize = b.tail) :
    (bufWrite b ch).fifo = push logBufSize (pop logBufSize b.fifo) ch ∧
      (bufWrite b ch).overflow = b.overflow + 1 := by
  have hused : ((b.head + 1) % logBufSize + logBufSize - (b.tail + 1) % logBufSize) % logBufSize =
      b.used - 1 + 1 := by
    have hfull := full_iff.mp h
    have hhead := b.head_lt
    have htail := b.tail_lt
    unfold LogBuf.used capacity logBufSize at *
    omega
  simp only [bufWrite, if_pos h, LogBuf.fifo, push, pop, LogBuf.used, hused, and_self]

/-- The ring drops its oldest character when it is full, and counts it. -/
theorem bufWrite_retained (b : LogBuf) (ch : BitVec 8) :
    (bufWrite b ch).retained =
      if b.retained.length < capacity then b.retained ++ [ch] else (b.retained ++ [ch]).tail := by
  have hlt := used_lt b
  rw [length_retained]
  by_cases hfull : (b.head + 1) % logBufSize = b.tail
  · have hused := full_iff.mp hfull
    have hcap : 0 < capacity := by decide
    have hpos : 0 < b.fifo.count := Nat.lt_of_lt_of_eq hcap hused.symm
    have hroom : (pop logBufSize b.fifo).count < logBufSize :=
      Nat.lt_of_le_of_lt (Nat.sub_le _ _) hlt
    have hno : ¬ b.used < capacity := by
      rw [hused]
      exact Nat.lt_irrefl _
    rw [if_neg hno, LogBuf.retained, (bufWrite_full hfull).1,
      toList_push (pop_wf (fifo_wf b) hpos) hroom, LogBuf.retained, toList_pop (fifo_wf b) hpos,
      List.cons_append, List.tail_cons]
  · have hyes : b.used < capacity :=
      Nat.lt_of_le_of_ne (Nat.le_pred_of_lt hlt) (full_iff.not.mp hfull)
    rw [if_pos hyes, LogBuf.retained, (bufWrite_room hfull).1, toList_push (fifo_wf b) hlt,
      LogBuf.retained]

theorem bufWrite_overflow (b : LogBuf) (ch : BitVec 8) :
    (bufWrite b ch).overflow =
      if b.retained.length < capacity then b.overflow else b.overflow + 1 := by
  rw [length_retained]
  by_cases hfull : (b.head + 1) % logBufSize = b.tail
  · have hno : ¬ b.used < capacity := by
      rw [full_iff.mp hfull]
      exact Nat.lt_irrefl _
    rw [if_neg hno, (bufWrite_full hfull).2]
  · have hyes : b.used < capacity :=
      Nat.lt_of_le_of_ne (Nat.le_pred_of_lt (used_lt b)) (full_iff.not.mp hfull)
    rw [if_pos hyes, (bufWrite_room hfull).2]

theorem bufRead_retained (h : bufEmpty b = false) :
    b.retained = (bufRead b).1 :: (bufRead b).2.retained ∧
      (bufRead b).2.overflow = b.overflow := by
  have hne : b.head ≠ b.tail := by simpa [bufEmpty] using h
  have hused := used_bufRead h
  have hpos : 0 < b.fifo.count := by
    change 0 < b.used
    omega
  have hcount : (bufRead b).2.used = b.used - 1 := by omega
  have hfifo : (bufRead b).2.fifo = pop logBufSize b.fifo := by
    unfold LogBuf.fifo pop
    rw [hcount]
    simp only [bufRead, if_neg hne]
  refine ⟨?_, by simp only [bufRead, if_neg hne]⟩
  rw [LogBuf.retained, toList_pop (fifo_wf b) hpos, LogBuf.retained, hfifo]
  simp only [bufRead, if_neg hne, LogBuf.fifo]

/-- The loop of `log_flush` sends what the ring retains and leaves it empty. -/
theorem drain_spec (s : State) :
    (drain s).uart = s.uart ++ s.buf.retained ∧ bufEmpty (drain s).buf = true ∧
      (drain s).buf.overflow = s.buf.overflow ∧ (drain s).output = s.output := by
  fun_induction drain s with
  | case1 s h ih =>
    obtain ⟨hsent, hempty, hover, hout⟩ := ih
    obtain ⟨hretained, hread⟩ := bufRead_retained h
    refine ⟨?_, hempty, hover.trans hread, hout⟩
    rw [hsent, hretained]
    simp [archPutchar]
  | case2 s h =>
    have hempty : bufEmpty s.buf = true := by simpa using h
    rw [retained_of_empty hempty, List.append_nil]
    exact ⟨rfl, hempty, rfl, rfl⟩

/-! ## Refinement -/

/-- The log is the queue, as far as its functions can tell. -/
structure Refines (s : State) (q : Queue) : Prop where
  kept : s.buf.retained = q.kept
  counter : s.buf.overflow = q.counter
  output : s.output = q.output
  sent : s.uart = q.sent

theorem Refines.write (h : Refines s q) (ch : BitVec 8) :
    Refines { s with buf := bufWrite s.buf ch } (q.put ch) := by
  have hkept := bufWrite_retained s.buf ch
  have hover := bufWrite_overflow s.buf ch
  rw [h.kept] at hkept hover
  unfold Queue.put
  split at hkept
  · next hroom =>
    rw [if_pos hroom] at hover ⊢
    exact ⟨hkept, hover.trans h.counter, h.output, h.sent⟩
  · next hfull =>
    rw [if_neg hfull] at hover ⊢
    refine ⟨hkept, ?_, h.output, h.sent⟩
    rw [hover, h.counter]
    exact (BitVec.ofNat_add _ _).symm

theorem Refines.archPutchar (h : Refines s q) (ch : BitVec 8) :
    Refines (archPutchar s ch) (q.send [ch]) :=
  ⟨h.kept, h.counter, h.output, congrArg (· ++ [ch]) h.sent⟩

theorem Refines.logPutchar (h : Refines s q) (ch : BitVec 8) :
    Refines (logPutchar s ch) (q.putchar ch) := by
  unfold Log.logPutchar Queue.putchar
  rw [← h.output]
  split
  · have hwrite := h.write ch
    dsimp only
    rw [← hwrite.output]
    dsimp only
    split
    · exact hwrite.archPutchar ch
    · exact hwrite
  · dsimp only
    rw [← h.output]
    split
    · exact h.archPutchar ch
    · exact h

/-- A text without NUL arrives at `log_putchar` as it is. -/
theorem Refines.safePrintf {text : List (BitVec 8)} (h : Refines s q) (hnul : 0 ∉ text) :
    Refines (safePrintf s text) (text.foldl Queue.putchar q) := by
  unfold Log.safePrintf
  induction text generalizing s q with
  | nil => exact h
  | cons ch text ih =>
    have hne : ¬ ch = 0 := fun he => hnul (he ▸ List.mem_cons_self)
    rw [List.foldl_cons, List.foldl_cons, outChar, if_neg hne]
    exact ih (h.logPutchar ch) fun hmem => hnul (List.mem_cons_of_mem _ hmem)

theorem ntoaLong_ne_zero (room value : Nat) : 0 ∉ ntoaLong room value := by
  induction room generalizing value with
  | zero => exact List.not_mem_nil
  | succ room ih =>
    have hdigit : ¬ 0 = BitVec.ofNat 8 (48 + value % 10) := by
      intro he
      have hval := congrArg BitVec.toNat he
      rw [BitVec.toNat_ofNat] at hval
      change 0 = _ at hval
      omega
    rw [ntoaLong, List.mem_cons, not_or]
    refine ⟨hdigit, ?_⟩
    split
    · exact List.not_mem_nil
    · exact ih _

theorem bannerText_ne_zero (dropped : Nat) : 0 ∉ bannerText dropped := by
  have hfront : (0 : BitVec 8) ∉ chars "\n--- " := by decide
  have hback : (0 : BitVec 8) ∉ chars " log chars dropped ---\n" := by decide
  unfold bannerText
  rw [List.mem_append, List.mem_append, List.mem_reverse, not_or, not_or]
  exact ⟨⟨hfront, ntoaLong_ne_zero 32 dropped⟩, hback⟩

theorem Refines.logFlush (h : Refines s q) : Refines (logFlush s) q.flush := by
  have hreport : Refines (if s.buf.overflow ≠ 0 then
      Log.safePrintf s (bannerText s.buf.overflow.toNat) else s) q.report := by
    unfold Queue.report
    rw [h.counter]
    split
    · exact h.safePrintf (bannerText_ne_zero _)
    · exact h
  unfold Log.logFlush
  obtain ⟨hsent, hempty, hover, hout⟩ := drain_spec (if s.buf.overflow ≠ 0 then
      Log.safePrintf s (bannerText s.buf.overflow.toNat) else s)
  refine ⟨retained_of_empty hempty, hover.trans hreport.counter, hout.trans hreport.output, ?_⟩
  rw [hsent, hreport.sent, hreport.kept]
  rfl

theorem Refines.call (h : Refines s q) (c : Call) : Refines (call s c) (q.call c) := by
  cases c with
  | putchar ch => exact h.logPutchar ch
  | setOutput mode => exact ⟨h.kept, h.counter, rfl, h.sent⟩
  | flush => exact h.logFlush

/-- In every run the ring is the queue of the last characters. -/
theorem run_refines (calls : List Call) : Refines (run calls) (Queue.run calls) := by
  have hboot : Refines bootLog ⟨[], 0, logOutputUart ||| logOutputBuf, []⟩ :=
    ⟨retained_of_empty rfl, rfl, rfl, rfl⟩
  unfold run Queue.run
  generalize bootLog = s at hboot ⊢
  generalize (⟨[], 0, logOutputUart ||| logOutputBuf, []⟩ : Queue) = q at hboot ⊢
  induction calls generalizing s q with
  | nil => exact hboot
  | cons c calls ih => exact ih _ _ (hboot.call c)

end

/-! ## The banner -/

/-- The digits are those of the decimal numeral. -/
theorem ntoaLong_digits {room value : Nat} (hpos : 0 < value) (hroom : value < 10 ^ room) :
    ntoaLong room value = (Nat.digits 10 value).map fun d => BitVec.ofNat 8 (48 + d) := by
  induction room generalizing value with
  | zero => omega
  | succ room ih =>
    rw [ntoaLong, Nat.digits_def' (by decide) hpos, List.map_cons]
    congr 1
    split
    · next hlast => simp [hlast]
    · next hmore =>
      refine ih (Nat.pos_of_ne_zero hmore) ?_
      rw [Nat.pow_succ] at hroom
      omega

theorem length_ntoaLong_le (room value : Nat) : (ntoaLong room value).length ≤ room := by
  induction room generalizing value with
  | zero => exact Nat.le_refl 0
  | succ room ih =>
    rw [ntoaLong, List.length_cons]
    split
    · simp
    · exact Nat.succ_le_succ (ih _)

theorem length_bannerText (dropped : Nat) :
    0 < (bannerText dropped).length ∧ (bannerText dropped).length < 2 ^ 16 := by
  have hdigits := length_ntoaLong_le 32 dropped
  have hfront : (chars "\n--- ").length = 5 := by decide
  have hback : (chars " log chars dropped ---\n").length = 23 := by decide
  unfold bannerText
  rw [List.length_append, List.length_append, List.length_reverse, hfront, hback]
  omega

/-! ## A text through the queue -/

section

variable {q : Queue}

theorem put_spec (hle : q.kept.length ≤ capacity) (ch : BitVec 8) :
    (q.put ch).kept = keepLast capacity (q.kept ++ [ch]) ∧
      (q.put ch).dropped = q.dropped + (q.kept.length + 1 - capacity) := by
  have hlen : (q.kept ++ [ch]).length = q.kept.length + 1 := by simp
  unfold Queue.put
  split
  · next hroom =>
    rw [keepLast_of_le (by rw [hlen]; exact hroom), Nat.sub_eq_zero_of_le hroom]
    exact ⟨rfl, rfl⟩
  · next hfull =>
    have hone : q.kept.length + 1 - capacity = 1 := by omega
    rw [keepLast, hlen, hone, List.drop_one]
    exact ⟨rfl, rfl⟩

/-- What a text makes of a queue. -/
structure Takes (q q' : Queue) (text : List (BitVec 8)) : Prop where
  output : q'.output = q.output
  sent : q'.sent = q.sent ++ if q.output &&& logOutputUart ≠ 0 then text else []
  kept : q'.kept =
    if q.output &&& logOutputBuf ≠ 0 then keepLast capacity (q.kept ++ text) else q.kept
  dropped : q'.dropped = q.dropped +
    if q.output &&& logOutputBuf ≠ 0 then q.kept.length + text.length - capacity else 0

theorem put_output (q : Queue) (ch : BitVec 8) :
    (q.put ch).output = q.output ∧ (q.put ch).sent = q.sent := by
  unfold Queue.put
  split <;> exact ⟨rfl, rfl⟩

theorem send_if (q : Queue) (c : Prop) [Decidable c] (text : List (BitVec 8)) :
    (if c then q.send text else q) = { q with sent := q.sent ++ if c then text else [] } := by
  split
  · rfl
  · rw [List.append_nil]

theorem takes_char (hle : q.kept.length ≤ capacity) (ch : BitVec 8) :
    Takes q (q.putchar ch) [ch] := by
  obtain ⟨hkept, hdropped⟩ := put_spec hle ch
  obtain ⟨houtput, hsent⟩ := put_output q ch
  unfold Queue.putchar
  by_cases hbuf : q.output &&& logOutputBuf ≠ 0
  · simp only [if_pos hbuf, houtput, send_if]
    refine ⟨rfl, congrArg (· ++ _) hsent, ?_, ?_⟩
    · rw [if_pos hbuf]
      exact hkept
    · rw [if_pos hbuf]
      exact hdropped
  · simp only [if_neg hbuf, send_if]
    refine ⟨rfl, rfl, ?_, ?_⟩
    · rw [if_neg hbuf]
    · rw [if_neg hbuf]
      rfl

theorem Takes.length_le {q' : Queue} {text : List (BitVec 8)} (h : Takes q q' text)
    (hle : q.kept.length ≤ capacity) : q'.kept.length ≤ capacity := by
  rw [h.kept]
  split
  · rw [length_keepLast]
    exact Nat.min_le_right _ _
  · exact hle

theorem Takes.trans {q₁ q₂ : Queue} {text rest : List (BitVec 8)} (h : Takes q q₁ text)
    (h' : Takes q₁ q₂ rest) : Takes q q₂ (text ++ rest) := by
  obtain ⟨ho, hs, hk, hd⟩ := h
  obtain ⟨ho', hs', hk', hd'⟩ := h'
  rw [ho] at hs' hk' hd'
  refine ⟨ho'.trans ho, ?_, ?_, ?_⟩
  · rw [hs', hs, List.append_assoc]
    split <;> simp
  · rw [hk', hk]
    split
    · rw [keepLast_keepLast_append, List.append_assoc]
    · rfl
  · rw [hd', hd, hk]
    split
    · rw [length_keepLast, List.length_append, List.length_append]
      omega
    · rfl

/-- A text goes through a queue character by character. -/
theorem takes_text (hle : q.kept.length ≤ capacity) (text : List (BitVec 8)) :
    Takes q (text.foldl Queue.putchar q) text := by
  induction text generalizing q with
  | nil =>
    refine ⟨rfl, by simp, ?_, ?_⟩
    · rw [List.append_nil, keepLast_of_le hle]
      exact (ite_self _).symm
    · rw [List.length_nil, Nat.add_zero, Nat.sub_eq_zero_of_le hle]
      rw [ite_self]
      rfl
  | cons ch text ih =>
    have hchar := takes_char hle ch
    exact hchar.trans (ih (hchar.length_le hle))

theorem Refines.length_le {s : State} (h : Refines s q) : q.kept.length ≤ capacity := by
  rw [← h.kept, length_retained]
  exact Nat.le_pred_of_lt (used_lt s.buf)

end

/-! ## What a flush sends -/

/-- `log_flush` sends the banner, if characters were dropped, and the retained characters, empties
the ring and drops none itself. -/
structure EmitsRetained (s : State) (dropped : Nat) : Prop where
  sent : (logFlush s).uart =
    s.uart ++ ((if dropped = 0 then [] else bannerText s.buf.overflow.toNat) ++ s.buf.retained)
  empty : bufEmpty (logFlush s).buf = true
  kept_count : (logFlush s).buf.overflow = s.buf.overflow

def State.UartOnly (s : State) : Prop :=
  s.output &&& logOutputUart ≠ 0 ∧ s.output &&& logOutputBuf = 0

def State.BufOnly (s : State) : Prop :=
  s.output &&& logOutputUart = 0 ∧ s.output &&& logOutputBuf ≠ 0

/-- The ring has room for the banner, and it makes no difference on which side of the retained
characters the banner stands. -/
def State.BannerFits (s : State) : Prop :=
  s.buf.retained.length + (bannerText s.buf.overflow.toNat).length ≤ capacity ∧
    s.buf.retained ++ bannerText s.buf.overflow.toNat =
      bannerText s.buf.overflow.toNat ++ s.buf.retained

section

variable {s : State} {q : Queue}

/-- The counter tells whether a text was dropped from. -/
theorem counter_eq_iff {q' : Queue} {k : Nat} (hk : k < 2 ^ 32) (h : q'.dropped = q.dropped + k) :
    q'.counter = q.counter ↔ k = 0 := by
  unfold Queue.counter
  rw [← BitVec.toNat_inj, BitVec.toNat_ofNat, BitVec.toNat_ofNat, h]
  omega

/-- The property, over the queue. -/
theorem emitsRetained_iff (h : Refines s q) : EmitsRetained s q.dropped ↔
    q.report.sent ++ q.report.kept =
      q.sent ++ ((if q.dropped = 0 then [] else bannerText q.counter.toNat) ++ q.kept) ∧
    q.report.counter = q.counter := by
  have hflush := h.logFlush
  have hsent : (logFlush s).uart = q.report.sent ++ q.report.kept := hflush.sent
  have hcounter : (logFlush s).buf.overflow = q.report.counter := hflush.counter
  have hempty : bufEmpty (logFlush s).buf = true := by
    unfold logFlush
    exact (drain_spec _).2.1
  constructor
  · rintro ⟨hs, -, hc⟩
    rw [hsent, h.sent, h.counter, h.kept] at hs
    rw [hcounter, h.counter] at hc
    exact ⟨hs, hc⟩
  · rintro ⟨hs, hc⟩
    refine ⟨?_, hempty, ?_⟩
    · rw [hsent, h.sent, h.counter, h.kept]
      exact hs
    · rw [hcounter, h.counter]
      exact hc

/-- With a report, the flush is right in UART mode, and in buffer mode when the banner fits. -/
theorem report_exact (h : Refines s q) (hcounter : q.counter ≠ 0) :
    EmitsRetained s q.dropped ↔ s.UartOnly ∨ s.BufOnly ∧ s.BannerFits := by
  have hdropped : ¬ q.dropped = 0 := by
    intro hz
    exact hcounter (congrArg (BitVec.ofNat 32) hz)
  obtain ⟨hpos, hlt⟩ := length_bannerText q.counter.toNat
  have hle := h.length_le
  have hreport : q.report = (bannerText q.counter.toNat).foldl Queue.putchar q := by
    unfold Queue.report
    rw [if_pos hcounter]
  obtain ⟨-, hsent, hkept, hdrop⟩ := takes_text hle (bannerText q.counter.toNat)
  rw [emitsRetained_iff h, if_neg hdropped, hreport, hsent, hkept]
  unfold State.UartOnly State.BufOnly State.BannerFits
  rw [h.output, h.kept, h.counter]
  by_cases hbuf : q.output &&& logOutputBuf = 0
  · rw [if_neg (not_not.mpr hbuf)] at hdrop ⊢
    have hsame := (counter_eq_iff (Nat.two_pow_pos 32) hdrop).mpr rfl
    by_cases huart : q.output &&& logOutputUart = 0
    · -- in neither mode the banner is lost
      rw [if_neg (not_not.mpr huart), List.append_nil, List.append_cancel_left_eq]
      refine iff_of_false (fun hsent => ?_) (by simp [hbuf, huart])
      have hlen := congrArg List.length hsent.1
      rw [List.length_append] at hlen
      omega
    · rw [if_pos huart, List.append_assoc]
      exact iff_of_true ⟨rfl, hsame⟩ (.inl ⟨huart, hbuf⟩)
  · rw [if_pos hbuf] at hdrop ⊢
    have hsame : _ ↔ q.kept.length + (bannerText q.counter.toNat).length ≤ capacity :=
      (counter_eq_iff (by omega) hdrop).trans Nat.sub_eq_zero_iff_le
    have hroom (hfits : q.kept.length + (bannerText q.counter.toNat).length ≤ capacity) :
        keepLast capacity (q.kept ++ bannerText q.counter.toNat) =
          q.kept ++ bannerText q.counter.toNat :=
      keepLast_of_le (by rw [List.length_append]; exact hfits)
    rw [hsame]
    by_cases huart : q.output &&& logOutputUart = 0
    · rw [if_neg (not_not.mpr huart), List.append_nil, List.append_cancel_left_eq]
      constructor
      · rintro ⟨hsent, hfits⟩
        rw [hroom hfits] at hsent
        exact .inr ⟨⟨huart, hbuf⟩, hfits, hsent⟩
      · rintro (⟨hno, -⟩ | ⟨-, hfits, hsent⟩)
        · exact absurd huart hno
        · rw [hroom hfits]
          exact ⟨hsent, hfits⟩
    · -- in both modes the banner is sent, and again from the ring
      rw [if_pos huart, List.append_assoc, List.append_cancel_left_eq,
        List.append_cancel_left_eq]
      refine iff_of_false ?_ ?_
      · rintro ⟨hsent, hfits⟩
        rw [hroom hfits] at hsent
        have hlen := congrArg List.length hsent
        rw [List.length_append] at hlen
        omega
      · rintro (⟨-, hno⟩ | ⟨⟨hno, -⟩, -⟩)
        · exact hbuf hno
        · exact huart hno

/-- Without a report the flush sends what the ring retains. -/
theorem silent_exact (h : Refines s q) (hcounter : q.counter = 0) :
    EmitsRetained s q.dropped ↔ q.dropped = 0 := by
  have hreport : q.report = q := by
    unfold Queue.report
    rw [if_neg (not_not.mpr hcounter)]
  rw [emitsRetained_iff h, hreport, List.append_cancel_left_eq]
  constructor
  · rintro ⟨hsent, -⟩
    by_contra hdropped
    rw [if_neg hdropped] at hsent
    have hlen := congrArg List.length hsent
    have hpos := (length_bannerText q.counter.toNat).1
    rw [List.length_append] at hlen
    omega
  · intro hdropped
    rw [if_pos hdropped]
    exact ⟨rfl, rfl⟩

end

/-- In every run, `log_flush` sends the banner and the retained log exactly when nothing was dropped,
or when the counter did not wrap to 0 and the mode is the UART alone, or the ring alone with a banner
that fits. -/
theorem flush_exact (calls : List Call) :
    EmitsRetained (run calls) (Queue.run calls).dropped ↔
      (Queue.run calls).dropped = 0 ∨
        (run calls).buf.overflow ≠ 0 ∧
          ((run calls).UartOnly ∨ (run calls).BufOnly ∧ (run calls).BannerFits) := by
  have h := run_refines calls
  rw [h.counter]
  by_cases hcounter : (Queue.run calls).counter = 0
  · rw [silent_exact h hcounter]
    simp [hcounter]
  · have hdropped : ¬ (Queue.run calls).dropped = 0 := by
      intro hz
      exact hcounter (congrArg (BitVec.ofNat 32) hz)
    rw [report_exact h hcounter, or_iff_right hdropped, and_iff_right hcounter]

/-- One character more than the ring holds. -/
theorem run_overfull {text : List (BitVec 8)} (hlen : text.length = capacity + 1) :
    (Queue.run (text.map .putchar)).output = logOutputUart ||| logOutputBuf ∧
      (Queue.run (text.map .putchar)).dropped = 1 := by
  have hrun : Queue.run (text.map .putchar) =
      text.foldl Queue.putchar ⟨[], 0, logOutputUart ||| logOutputBuf, []⟩ := by
    unfold Queue.run
    rw [List.foldl_map]
    rfl
  obtain ⟨houtput, -, -, hdropped⟩ :=
    takes_text (q := ⟨[], 0, logOutputUart ||| logOutputBuf, []⟩) (Nat.zero_le _) text
  have hmode : (logOutputUart ||| logOutputBuf) &&& logOutputBuf ≠ 0 := by decide
  rw [hrun]
  refine ⟨houtput, ?_⟩
  dsimp only at hdropped
  rw [hdropped, if_pos hmode, List.length_nil, hlen]
  omega

/-- Characters that fill the ring, and one more. -/
def spill : List (BitVec 8) := List.replicate (capacity + 1) 0x61

/-- In the mode of the boot the banner is sent twice, and the second time in the place of retained
characters. -/
theorem flush_fails :
    ¬ EmitsRetained (run (spill.map .putchar)) (Queue.run (spill.map .putchar)).dropped := by
  have h := run_refines (spill.map .putchar)
  have hlen : spill.length = capacity + 1 := List.length_replicate
  obtain ⟨houtput, hone⟩ := run_overfull hlen
  have hcounter : (Queue.run (spill.map .putchar)).counter ≠ 0 := by
    unfold Queue.counter
    rw [hone]
    decide
  rw [report_exact h hcounter]
  unfold State.UartOnly State.BufOnly
  rw [h.output, houtput]
  rintro (⟨-, hno⟩ | ⟨⟨hno, -⟩, -⟩)
  · exact absurd hno (by decide)
  · exact absurd hno (by decide)

end HyperCore.Log
