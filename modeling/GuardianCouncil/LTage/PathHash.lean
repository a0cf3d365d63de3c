import Mathlib.Tactic.IntervalCases
import GuardianCouncil.LTage.Model
import GuardianCouncil.Lib.BitRotation
import GuardianCouncil.Lib.Fallible

/-!
# The path hash

`F` rotates the path history by the number of the bank, within the width of the index.  The shift to the right is by the
width less the number of the bank, which is negative for the last banks if the tables are small: with the default sizes
banks 11 and 12 have 9 bits.  The hash is what it should be exactly for the banks that have enough bits (`path_hash_iff`).
-/

namespace GuardianCouncil.LTage

open BitRotation Fallible Shifts

/-- The constructor gets to its end: it has sizes for twelve banks only, the tables can be allocated, and the folded
histories divide by the size. -/
def Config.Accepted (cfg : Config) : Prop :=
  cfg.nHistoryTables ≤ 12 ∧
    ∀ bank, 1 ≤ bank → bank ≤ cfg.nHistoryTables → 1 ≤ cfg.tagTableSizes bank ∧ cfg.tagTableSizes bank ≤ 30

/-- The number of bits of the path that are used for a bank. -/
def Config.hlen (cfg : Config) (bank : ℕ) : ℕ := if cfg.histLengths bank > 16 then 16 else cfg.histLengths bank

section

variable {cfg : Config} {bank width a : ℕ}

variable {amount A size : ℕ}

theorem checked_left (h : amount < width) : checked.left width a amount = .ok (a <<< amount) := by
  simp [checked, h]

theorem checked_right (h : amount < width) : checked.right width a amount = .ok (a >>> amount) := by
  simp [checked, h]

theorem checked_right_of_neg {amount : ℤ} (h : amount < 0) : checked.right width a amount = .error .shift := by
  simp [checked, Int.not_le.2 h]

theorem checked_ones {n : ℕ} (h : n < 64) : ones checked n = .ok (2 ^ n - 1) := by
  rw [ones, checked_left h, ok_bind, Nat.one_shiftLeft]
  rfl

/-- With all shifts in range. -/
theorem F_eq (hsi : size < 64) (hba : bank ≤ cfg.tagTableSizes bank) (hb32 : bank < 32)
    (hta : cfg.tagTableSizes bank < 32) : F checked cfg A size bank = .ok (rotl (cfg.tagTableSizes bank) bank
        ((A % 2 ^ size) % 2 ^ cfg.tagTableSizes bank ^^^
          rotl (cfg.tagTableSizes bank) bank ((A % 2 ^ size) >>> cfg.tagTableSizes bank))) := by
  have hsub : (cfg.tagTableSizes bank - bank : ℤ) = (cfg.tagTableSizes bank - bank : ℕ) := by omega
  have hri (a : ℕ) : checked.right 32 a (cfg.tagTableSizes bank - bank : ℤ) =
      .ok (a >>> (cfg.tagTableSizes bank - bank)) := by
    rw [hsub, checked_right (by omega)]
  simp only [F, checked_ones hsi, checked_ones (show cfg.tagTableSizes bank < 64 by omega), checked_right hta,
    checked_left hb32, hri, ok_bind, Nat.and_two_pow_sub_one_eq_mod]
  simp only [rotl, Nat.and_two_pow_sub_one_eq_mod]
  rfl

/-- A path of no more bits than the index is rotated. -/
theorem F_eq_rotl (hba : bank ≤ cfg.tagTableSizes bank) (hb32 : bank < 32)
    (hta : cfg.tagTableSizes bank < 32) (hlen : A < 2 ^ cfg.hlen bank) (hA : A < 2 ^ cfg.tagTableSizes bank) :
    F checked cfg A (cfg.hlen bank) bank = .ok (rotl (cfg.tagTableSizes bank) bank A) := by
  have hsi : cfg.hlen bank < 64 := by
    rw [Config.hlen]
    split <;> omega
  have hzero : rotl (cfg.tagTableSizes bank) bank 0 = 0 := by simp [rotl]
  rw [F_eq hsi hba hb32 hta, Nat.mod_eq_of_lt hlen, Nat.mod_eq_of_lt hA, Nat.shiftRight_eq_div_pow,
    Nat.div_eq_of_lt hA, hzero, Nat.xor_zero]

theorem F_of_lt (hsi : size < 64) (hba : cfg.tagTableSizes bank < bank) (hb32 : bank < 32) :
    F checked cfg A size bank = .error .shift := by
  have hneg (a : ℕ) : checked.right 32 a (cfg.tagTableSizes bank - bank : ℤ) = .error .shift :=
    checked_right_of_neg (by omega)
  simp only [F, checked_ones hsi, checked_ones (show cfg.tagTableSizes bank < 64 by omega),
    checked_right (show cfg.tagTableSizes bank < 32 by omega), checked_left hb32, hneg, ok_bind, error_bind]

end

/-- All shifts have a meaning, and different paths of no more bits than the index have different hashes, which are
indices. -/
structure HashWellDefined (cfg : Config) (bank : ℕ) : Prop where
  shifts : ∀ comp pathHist pc, ∃ index, gindex checked cfg comp pathHist pc bank = .ok index
  lt : ∀ A, A < 2 ^ cfg.hlen bank → A < 2 ^ cfg.tagTableSizes bank →
    ∃ r < 2 ^ cfg.tagTableSizes bank, F checked cfg A (cfg.hlen bank) bank = .ok r
  injective : ∀ A B, A < 2 ^ cfg.hlen bank → A < 2 ^ cfg.tagTableSizes bank → B < 2 ^ cfg.hlen bank →
    B < 2 ^ cfg.tagTableSizes bank →
    F checked cfg A (cfg.hlen bank) bank = F checked cfg B (cfg.hlen bank) bank → A = B

/-- **The hash is well defined exactly for the banks whose index has at least as many bits as their number says.** -/
theorem path_hash_iff (cfg : Config) (h : cfg.Accepted) (bank : ℕ) (h1 : 1 ≤ bank) (hn : bank ≤ cfg.nHistoryTables) :
    HashWellDefined cfg bank ↔ bank ≤ cfg.tagTableSizes bank := by
  obtain ⟨hpos, hle⟩ := h.2 bank h1 hn
  have hb32 : bank < 32 := by have := h.1; omega
  have hta : cfg.tagTableSizes bank < 32 := by omega
  have hsi : cfg.hlen bank < 64 := by
    rw [Config.hlen]
    split <;> omega
  constructor
  · intro hwe
    by_contra hlt
    obtain ⟨index, hin⟩ := hwe.shifts 0 0 0
    obtain ⟨shifted, -, hin⟩ := bind_eq_ok.1 hin
    obtain ⟨hash, hF, -⟩ := bind_eq_ok.1 hin
    have hF : F checked cfg 0 (cfg.hlen bank) bank = .ok hash := hF
    rw [F_of_lt hsi (by omega) hb32] at hF
    cases hF
  · intro hba
    refine ⟨fun comp pathHist pc => ?_, fun A hlen hA => ?_, fun A B hlenA hA hlenB hB heq => ?_⟩
    · have ha : ((cfg.tagTableSizes bank - bank : ℤ).natAbs + 1 : ℤ) =
          ((cfg.tagTableSizes bank - bank + 1 : ℕ) : ℤ) := by omega
      have hF := F_eq (A := pathHist) hsi hba hb32 hta
      rw [Config.hlen] at hF
      simp only [gindex, hF, ha, checked_right (show cfg.tagTableSizes bank - bank + 1 < 64 by omega), ok_bind,
        checked_ones (show cfg.tagTableSizes bank < 64 by omega)]
      exact ⟨_, rfl⟩
    · exact ⟨_, rotl_lt hba hA, F_eq_rotl hba hb32 hta hlen hA⟩
    · rw [F_eq_rotl hba hb32 hta hlenA hA, F_eq_rotl hba hb32 hta hlenB hB, Except.ok.injEq] at heq
      exact rotl_injOn hba hA hB heq

/-- The default sizes, with lengths for the banks as they come out for histories from 4 to 640. -/
def defaultConfig : Config :=
  { histLengths := fun
      | 1 => 4 | 2 => 6 | 3 => 10 | 4 => 16 | 5 => 25 | 6 => 40 | 7 => 64 | 8 => 101 | 9 => 160 | 10 => 254 | 11 => 403
      | 12 => 640 | _ => 0 }

theorem defaultConfig_accepted : defaultConfig.Accepted := by
  refine ⟨by decide, fun bank h1 hn => ?_⟩
  have hn : bank ≤ 12 := hn
  interval_cases bank <;> decide

/-- Bank 10 has an index of ten bits. -/
theorem path_hash_bank10 : defaultConfig.tagTableSizes 10 = 10 ∧ HashWellDefined defaultConfig 10 :=
  ⟨rfl, (path_hash_iff defaultConfig defaultConfig_accepted 10 (by decide) (by decide)).2 (by decide)⟩

/-- Bank 12 has an index of nine bits, so that one of its shifts is by minus three. -/
theorem path_hash_bank12 : gindex checked defaultConfig 0 0 0 12 = .error .shift ∧ defaultConfig.Accepted ∧
      12 ≤ defaultConfig.nHistoryTables := by
  exact ⟨by decide, defaultConfig_accepted, by decide⟩

end GuardianCouncil.LTage
