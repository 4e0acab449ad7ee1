import LocLang.Text.Utf8

namespace LocLang.Text.Utf8

variable {a b : UInt8} {bytes : List UInt8} {xs ys : List Char}

theorem toNat_ofNat {n : Nat} (h : n < 0x110000) (hgap : ¬(0xD800 ≤ n ∧ n ≤ 0xDFFF)) : (Char.ofNat n).toNat = n := by
  have hvalid : n.isValidChar := by
    omega
  rw [Char.ofNat, dif_pos hvalid]
  rfl

theorem decodeAfter_cons (a : UInt8) (bytes : List UInt8) :
    decodeAfter 0 (a :: bytes) = (first a bytes).1 :: decodeAfter (first a bytes).2 bytes := rfl

theorem first_of_lt (hb : b.toNat < 0x80) (following : List UInt8) : first b following = (Char.ofNat b.toNat, 0) :=
  if_pos hb

theorem snd_first_le (a : UInt8) (following : List UInt8) : (first a following).2 ≤ following.length := by
  unfold first
  rcases following with _ | ⟨x, _ | ⟨y, _ | ⟨z, following⟩⟩⟩ <;> dsimp only <;> repeat' split
  all_goals simp

/-- A character of several bytes does not reach over a character of one. -/
theorem first_append (hb : b.toNat < 0x80) (xs ys : List UInt8) : first a (xs ++ b :: ys) = first a xs := by
  have htail : isTail b = false := by
    simp only [isTail, Bool.and_eq_false_iff, decide_eq_false_iff_not]
    omega
  unfold first
  rcases xs with _ | ⟨x, _ | ⟨y, _ | ⟨z, xs⟩⟩⟩
  · cases ys with
    | nil => simp [htail]
    | cons _ ys => cases ys <;> simp [htail]
  · cases ys <;> simp [htail]
  · simp [htail]
  · rfl

theorem addTail_bounds (n : Nat) (hb : isTail b) : n * 64 ≤ addTail n b ∧ addTail n b < (n + 1) * 64 := by
  simp only [isTail, Bool.and_eq_true, decide_eq_true_eq] at hb
  unfold addTail
  omega

theorem le_toNat_first (ha : 0x80 ≤ a.toNat) (following : List UInt8) : 0x80 ≤ (first a following).1.toNat := by
  have hreplacement : 0x80 ≤ replacement.toNat := by decide
  unfold first
  rw [if_neg (Nat.not_lt.2 ha)]
  split
  · next hrange =>
    simp only [Bool.and_eq_true, decide_eq_true_eq] at hrange
    split
    · split
      · next b _ hb =>
        have hcode := addTail_bounds (a.toNat - 0xC0) hb
        rw [toNat_ofNat (by omega) (by omega)]
        omega
      · exact hreplacement
    · exact hreplacement
  · split
    · next hrange =>
      simp only [Bool.and_eq_true, decide_eq_true_eq] at hrange
      split
      · dsimp only
        split
        · next b c _ hcode =>
          simp only [Bool.and_eq_true, decide_eq_true_eq, Bool.not_eq_true', Bool.and_eq_false_iff,
            decide_eq_false_iff_not] at hcode
          have hb := addTail_bounds (a.toNat - 0xE0) hcode.1.1.1
          have hc := addTail_bounds (addTail (a.toNat - 0xE0) b) hcode.1.1.2
          rw [toNat_ofNat (by omega) (by omega)]
          omega
        · exact hreplacement
      · exact hreplacement
    · split
      · split
        · dsimp only
          split
          · next hcode =>
            simp only [Bool.and_eq_true, decide_eq_true_eq] at hcode
            rw [toNat_ofNat (by omega) (by omega)]
            omega
          · exact hreplacement
        · exact hreplacement
      · exact hreplacement

/-- A byte below 0x80 is one character, and what is before and after it is decoded alone. -/
theorem decodeAfter_append (hb : b.toNat < 0x80) {owed : Nat} (xs ys : List UInt8) (howed : owed ≤ xs.length) :
    decodeAfter owed (xs ++ b :: ys) = decodeAfter owed xs ++ Char.ofNat b.toNat :: decode ys := by
  induction xs generalizing owed with
  | nil =>
    obtain rfl : owed = 0 := Nat.le_zero.1 howed
    rw [List.nil_append, decodeAfter_cons, first_of_lt hb]
    rfl
  | cons a xs ih =>
    cases owed with
    | zero =>
      rw [List.cons_append, decodeAfter_cons, decodeAfter_cons, first_append hb,
        ih (snd_first_le a xs), List.cons_append]
    | succ => rw [List.cons_append, decodeAfter, decodeAfter, ih (Nat.le_of_succ_le_succ howed)]

theorem decode_append (hb : b.toNat < 0x80) (xs ys : List UInt8) :
    decode (xs ++ b :: ys) = decode xs ++ Char.ofNat b.toNat :: decode ys :=
  decodeAfter_append hb xs ys (Nat.zero_le _)

theorem decode_cons (hb : b.toNat < 0x80) (ys : List UInt8) : decode (b :: ys) = Char.ofNat b.toNat :: decode ys :=
  decode_append hb [] ys

theorem eq_of_ofNat_eq (hb : b.toNat < 0x80) (h : Char.ofNat a.toNat = Char.ofNat b.toNat) (ha : a.toNat < 0x80) :
    a = b := by
  have htoNat := congrArg Char.toNat h
  rw [toNat_ofNat (by omega) (by omega), toNat_ofNat (by omega) (by omega)] at htoNat
  exact UInt8.toNat_inj.1 htoNat

/-- A character below 0x80 comes from its byte. -/
theorem exists_of_decodeAfter_eq (hb : b.toNat < 0x80) {owed : Nat}
    (h : decodeAfter owed bytes = xs ++ Char.ofNat b.toNat :: ys) :
    ∃ before after, bytes = before ++ b :: after ∧ decode after = ys := by
  induction bytes generalizing owed xs with
  | nil => simp [decodeAfter] at h
  | cons a bytes ih =>
    cases owed with
    | succ =>
      obtain ⟨before, after, rfl, hafter⟩ := ih h
      exact ⟨a :: before, after, rfl, hafter⟩
    | zero =>
      rw [decodeAfter_cons] at h
      cases xs with
      | nil =>
        obtain ⟨hfirst, hrest⟩ := List.cons.inj h
        by_cases ha : a.toNat < 0x80
        · rw [first_of_lt ha] at hfirst hrest
          obtain rfl := eq_of_ofNat_eq hb hfirst ha
          exact ⟨[], bytes, rfl, hrest⟩
        · have hle := le_toNat_first (Nat.not_lt.1 ha) bytes
          have hlt : (first a bytes).1.toNat < 0x80 := by
            rw [hfirst, toNat_ofNat (by omega) (by omega)]
            exact hb
          omega
      | cons =>
        obtain ⟨before, after, rfl, hafter⟩ := ih (List.cons.inj h).2
        exact ⟨a :: before, after, rfl, hafter⟩

theorem exists_of_decode_eq (hb : b.toNat < 0x80) (h : decode bytes = xs ++ Char.ofNat b.toNat :: ys) :
    ∃ before after, bytes = before ++ b :: after ∧ decode before = xs ∧ decode after = ys := by
  obtain ⟨before, after, rfl, rfl⟩ := exists_of_decodeAfter_eq hb h
  rw [decode_append hb] at h
  exact ⟨before, after, rfl, List.append_cancel_right h, rfl⟩

/-- A character below 0x80 is in a text if its byte is among the bytes. -/
theorem mem_decode (hb : b.toNat < 0x80) : Char.ofNat b.toNat ∈ decode bytes ↔ b ∈ bytes := by
  constructor
  · intro h
    obtain ⟨xs, ys, hchars⟩ := List.append_of_mem h
    obtain ⟨before, after, rfl, -⟩ := exists_of_decode_eq hb hchars
    simp
  · intro h
    obtain ⟨before, after, rfl⟩ := List.append_of_mem h
    rw [decode_append hb]
    simp

theorem eq_nil_of_decode_eq_nil (h : decode bytes = []) : bytes = [] := by
  cases bytes with
  | nil => rfl
  | cons => simp [decode, decodeAfter_cons] at h

theorem length_decodeAfter_le (owed : Nat) (bytes : List UInt8) : (decodeAfter owed bytes).length ≤ bytes.length := by
  induction bytes generalizing owed with
  | nil => simp [decodeAfter]
  | cons _ _ ih =>
    cases owed with
    | zero => exact Nat.succ_le_succ (ih _)
    | succ owed => exact Nat.le_succ_of_le (ih owed)

end LocLang.Text.Utf8
