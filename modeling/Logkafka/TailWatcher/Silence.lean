/-
# `Logkafka.TailWatcher.Silence` — what the clock says of a silent file

`isActive` and `isBufferStuck` take the difference of two readings of the clock,
which is signed, times `1000UL`, which is not: the product is taken modulo 2^64
and compared with an unsigned limit.

    now later than last     the product is at most the time that passed, so a
                            limit that is exceeded has really passed
    now earlier than last   the product is 2^64 less what the clock went back, a
                            few hundred million years

So an hour that the clock is set back makes every watcher inactive and every
buffer stuck (`elapsedMs_stepped_back`), and the next call flushes the part of a
line that was read (`flushes_stepped_back`).
-/
import Logkafka.TailWatcher.Resume

namespace Logkafka

namespace IOHandler

variable {now last : ℤ} {m : ℕ}

/-- The time that passed exceeds the limit. -/
def Silent (now last : ℤ) (m : ℕ) : Prop := last ≤ now ∧ (m : ℤ) < (now - last) * 1000

/-- The clock was not set back, or so far that the product wraps to at most `m`. -/
def Wraps (now last : ℤ) (m : ℕ) : Prop :=
  last ≤ now ∨ ∃ k : ℤ, (last - now) * 1000 ≤ k * 2 ^ 64 ∧ k * 2 ^ 64 ≤ (last - now) * 1000 + m

/-- A remainder is small where a multiple is near. -/
theorem emod_toNat_le_iff {x n : ℤ} (hn : 0 < n) :
    (x % n).toNat ≤ m ↔ ∃ k, -x ≤ k * n ∧ k * n ≤ -x + m := by
  have hnonneg := Int.emod_nonneg x hn.ne'
  have hdiv := Int.emod_def x n
  constructor
  · intro h
    refine ⟨-(x / n), ?_, ?_⟩
    · rw [neg_mul, mul_comm]
      omega
    · rw [neg_mul, mul_comm]
      omega
  · rintro ⟨k, hlow, hhigh⟩
    have hk : -k ≤ x / n := by
      rw [Int.le_ediv_iff_mul_le hn, neg_mul]
      omega
    have hmul := mul_le_mul_of_nonneg_left hk hn.le
    rw [mul_neg, mul_comm n k] at hmul
    omega

theorem wrap_pos : (0 : ℤ) < 2 ^ 64 := by norm_num

theorem elapsedMs_le_iff :
    elapsedMs now last ≤ m ↔
      ∃ k : ℤ, (last - now) * 1000 ≤ k * 2 ^ 64 ∧ k * 2 ^ 64 ≤ (last - now) * 1000 + m := by
  have hneg : -((now - last) * 1000) = (last - now) * 1000 := by rw [← neg_mul, neg_sub]
  rw [elapsedMs, emod_toNat_le_iff wrap_pos, hneg]

/-- The product is no more than the time that passed. -/
theorem elapsedMs_le (h : last ≤ now) : (elapsedMs now last : ℤ) ≤ (now - last) * 1000 := by
  have hpos : 0 ≤ (now - last) * 1000 := Int.mul_nonneg (by omega) (by decide)
  have hnonneg := Int.emod_nonneg ((now - last) * 1000) wrap_pos.ne'
  have hdiv := Int.emod_def ((now - last) * 1000) (2 ^ 64)
  have hmul := mul_nonneg wrap_pos.le (Int.ediv_nonneg hpos wrap_pos.le)
  rw [elapsedMs, Int.toNat_of_nonneg hnonneg, hdiv]
  exact sub_le_self _ hmul

theorem elapsedMs_silent_iff :
    (m < elapsedMs now last → Silent now last m) ↔ Wraps now last m := by
  rcases le_or_gt last now with hle | hlt
  · refine iff_of_true (fun hm => ⟨hle, ?_⟩) (Or.inl hle)
    have hreal := elapsedMs_le hle
    omega
  · have hnot : ¬ Silent now last m := fun h => absurd h.1 (not_le.mpr hlt)
    rw [Wraps, or_iff_right (not_le.mpr hlt), ← elapsedMs_le_iff]
    exact ⟨fun h => not_lt.mp fun hm => hnot (h hm), fun h hm => absurd h (not_le.mpr hm)⟩

/-- A clock that was set back by less than the wrap takes any limit for exceeded. -/
theorem elapsedMs_stepped_back (hlt : now < last) (h : (last - now) * 1000 + m < 2 ^ 64) :
    m < elapsedMs now last := by
  refine not_le.mp fun hle => ?_
  obtain ⟨k, hlow, hhigh⟩ := elapsedMs_le_iff.mp hle
  have hk : 0 < k := by
    by_contra hk
    have := mul_nonpos_of_nonpos_of_nonneg (not_lt.mp hk) wrap_pos.le
    omega
  have := le_mul_of_one_le_left wrap_pos.le hk
  omega

/-- Then a call flushes any part of a line that there is room for. -/
theorem flushes_stepped_back {c : Conf} {h : IOHandler} (hlt : now < h.lastBufferStuckTime)
    (hwrap : (h.lastBufferStuckTime - now) * 1000 + bufferStuckMaxMs < 2 ^ 64) :
    flushes c now h = true ↔
      h.buffer ≠ [] ∧ h.lines.length < c.maxLineAtOnce ∧ h.bufferLastSegment = true := by
  have hstuck : isBufferStuck now h = true :=
    decide_eq_true (elapsedMs_stepped_back hlt hwrap)
  rw [flushes, hstuck]
  simp [and_assoc]

end IOHandler

namespace TailWatcher

open IOHandler

/-- **When silence is not inferred from the clock alone.**  For any watcher with a
handler and any reading of the clock, `isActive` and `isBufferStuck` tell it
silent only if the limit has passed: if and only if the clock is not behind the
reading they compare with, or so far behind it that the product wraps to no more
than the limit. -/
theorem silence_iff (cfg : Config) (now : ℤ) (tw : TailWatcher) (r : Reader) :
    ((({ tw with reader := some r }).isActive cfg now = false →
        Silent now r.handler.lastIoTime cfg.statSilentMaxMs.toNat) ↔
      Wraps now r.handler.lastIoTime cfg.statSilentMaxMs.toNat) ∧
    ((isBufferStuck now r.handler = true →
        Silent now r.handler.lastBufferStuckTime bufferStuckMaxMs) ↔
      Wraps now r.handler.lastBufferStuckTime bufferStuckMaxMs) := by
  constructor
  · rw [← elapsedMs_silent_iff, isActive, decide_eq_false_iff_not, not_le]
  · rw [← elapsedMs_silent_iff, isBufferStuck, decide_eq_true_iff, gt_iff_lt]

/-- A watcher whose handler read, and kept a part of a line, at second 10000. -/
def readAt10000 : Reader :=
  ⟨5, { IOHandler.init 0 0 10000 with lastBufferStuckTime := 10000 }⟩

/-- The clock is set back to 6400. -/
theorem silence_fails :
    ({ fresh true with reader := some readAt10000 } : TailWatcher).isActive ⟨30000, 8, 16, 1⟩ 6400
        = false ∧
      isBufferStuck 6400 readAt10000.handler = true ∧
      ¬ Silent 6400 10000 30000 ∧ ¬ Silent 6400 10000 bufferStuckMaxMs := by
  refine ⟨by decide, by decide, ?_, ?_⟩
  · exact fun h => absurd h.1 (by decide)
  · exact fun h => absurd h.1 (by decide)

end TailWatcher

end Logkafka
