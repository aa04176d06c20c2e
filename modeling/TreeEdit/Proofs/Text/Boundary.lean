import TreeEdit.Text.Bytes

/-!
# Cutting a text at boundaries

A boundary is where a text can be cut in two (`isBoundary_iff`). At boundaries `drop` and `take` give
the two parts, `between` gives the part in the middle, and ranges that share an end join
(`between_append_between`). From every boundary but the last, one character leads to the next
(`exists_next`).
-/

namespace TreeEdit.Text

theorem utf8Size_add (c : Char) (n : Nat) : ∃ k, c.utf8Size + n = k + 1 ∧ k + 1 - c.utf8Size = n :=
  ⟨c.utf8Size + n - 1, by have := c.utf8Size_pos; omega, by have := c.utf8Size_pos; omega⟩

@[simp] theorem isBoundary_zero (t : List Char) : isBoundary t 0 = true := by
  cases t <;> rfl

@[simp] theorem isBoundary_cons_add (c : Char) (t : List Char) (n : Nat) :
    isBoundary (c :: t) (c.utf8Size + n) = isBoundary t n := by
  obtain ⟨k, hk, hn⟩ := utf8Size_add c n
  rw [hk, isBoundary, hn, decide_eq_true (by omega), Bool.true_and]

@[simp] theorem drop_zero (t : List Char) : drop 0 t = t := by
  cases t <;> rfl

@[simp] theorem drop_cons_add (c : Char) (t : List Char) (n : Nat) :
    drop (c.utf8Size + n) (c :: t) = drop n t := by
  obtain ⟨k, hk, hn⟩ := utf8Size_add c n
  rw [hk, drop, hn]

@[simp] theorem take_zero (t : List Char) : take 0 t = [] := by
  cases t <;> rfl

@[simp] theorem take_cons_add (c : Char) (t : List Char) (n : Nat) :
    take (c.utf8Size + n) (c :: t) = c :: take n t := by
  obtain ⟨k, hk, hn⟩ := utf8Size_add c n
  rw [hk, take, hn]

/-! ## Cutting in two and in three -/

theorem isBoundary_size_append (pre post : List Char) : isBoundary (pre ++ post) (size pre) = true := by
  induction pre with
  | nil => simp
  | cons c pre ih => simpa using ih

theorem isBoundary_iff {t : List Char} {n : Nat} :
    isBoundary t n = true ↔ ∃ pre post, t = pre ++ post ∧ size pre = n := by
  constructor
  · intro h
    induction t generalizing n with
    | nil =>
      cases n with
      | zero => exact ⟨[], [], rfl, rfl⟩
      | succ n => simp [isBoundary] at h
    | cons c t ih =>
      cases n with
      | zero => exact ⟨[], c :: t, rfl, rfl⟩
      | succ n =>
        simp only [isBoundary, Bool.and_eq_true, decide_eq_true_eq] at h
        obtain ⟨hle, h⟩ := h
        obtain ⟨pre, post, rfl, hsize⟩ := ih h
        exact ⟨c :: pre, post, rfl, by simp; omega⟩
  · rintro ⟨pre, post, rfl, rfl⟩
    exact isBoundary_size_append pre post

theorem isBoundary_size (t : List Char) : isBoundary t (size t) = true :=
  isBoundary_iff.mpr ⟨t, [], by simp, rfl⟩

theorem le_size_of_isBoundary {t : List Char} {n : Nat} (h : isBoundary t n = true) : n ≤ size t := by
  obtain ⟨pre, post, rfl, rfl⟩ := isBoundary_iff.mp h
  simp

theorem drop_size_append (pre post : List Char) : drop (size pre) (pre ++ post) = post := by
  induction pre with
  | nil => simp
  | cons c pre ih => simpa using ih

theorem take_size_append (pre post : List Char) : take (size pre) (pre ++ post) = pre := by
  induction pre with
  | nil => simp
  | cons c pre ih => simpa using ih

theorem between_size_append (pre mid post : List Char) :
    between (pre ++ (mid ++ post)) (size pre) (size pre + size mid) = mid := by
  rw [between, drop_size_append, Nat.add_sub_cancel_left, take_size_append]

@[simp] theorem between_self (t : List Char) (n : Nat) : between t n n = [] := by
  rw [between, Nat.sub_self, take_zero]

theorem append_eq_append_of_size_le {a b c d : List Char} (h : a ++ b = c ++ d) (hle : size a ≤ size c) :
    ∃ mid, c = a ++ mid ∧ b = mid ++ d := by
  rcases List.append_eq_append_iff.mp h with ⟨mid, hc, hb⟩ | ⟨mid, ha, hd⟩
  · exact ⟨mid, hc, hb⟩
  · cases mid with
    | nil => exact ⟨[], by simpa using ha.symm, by simpa using hd.symm⟩
    | cons x mid =>
      have := x.utf8Size_pos
      rw [ha] at hle
      simp at hle
      omega

theorem exists_cut {t : List Char} {m n : Nat} (hm : isBoundary t m = true) (hn : isBoundary t n = true)
    (hle : m ≤ n) :
    ∃ pre mid post, t = pre ++ (mid ++ post) ∧ size pre = m ∧ size pre + size mid = n := by
  obtain ⟨a, b, rfl, rfl⟩ := isBoundary_iff.mp hm
  obtain ⟨c, d, heq, rfl⟩ := isBoundary_iff.mp hn
  obtain ⟨mid, rfl, rfl⟩ := append_eq_append_of_size_le heq hle
  exact ⟨a, mid, d, rfl, rfl, by simp⟩

theorem between_append_between {t : List Char} {l m n : Nat} (hl : isBoundary t l = true)
    (hm : isBoundary t m = true) (hn : isBoundary t n = true) (hlm : l ≤ m) (hmn : m ≤ n) :
    between t l m ++ between t m n = between t l n := by
  obtain ⟨pre, rest, post, rfl, rfl, rfl⟩ := exists_cut hl hn (Nat.le_trans hlm hmn)
  obtain ⟨front, back, heq, rfl⟩ := isBoundary_iff.mp hm
  obtain ⟨mid, rfl, hmid⟩ := append_eq_append_of_size_le heq hlm
  have hle : size mid ≤ size rest := by simp at hmn; exact hmn
  obtain ⟨last, rfl, rfl⟩ := append_eq_append_of_size_le hmid.symm hle
  rw [between_size_append pre (mid ++ last) post, size_append,
    show pre ++ (mid ++ last ++ post) = pre ++ (mid ++ (last ++ post)) by simp, between_size_append,
    show pre ++ (mid ++ (last ++ post)) = (pre ++ mid) ++ (last ++ post) by simp,
    show size pre + size (mid ++ last) = size (pre ++ mid) + size last by simp; omega,
    ← size_append, between_size_append]

theorem exists_next {t : List Char} {m n : Nat} (hm : isBoundary t m = true) (hn : isBoundary t n = true)
    (hlt : m < n) :
    ∃ c rest, drop m t = c :: rest ∧ isBoundary t (m + c.utf8Size) = true ∧ m + c.utf8Size ≤ n ∧
      between t m (m + c.utf8Size) = [c] := by
  obtain ⟨pre, mid, post, rfl, rfl, rfl⟩ := exists_cut hm hn (Nat.le_of_lt hlt)
  cases mid with
  | nil => simp at hlt
  | cons c mid =>
    refine ⟨c, mid ++ post, drop_size_append _ _, ?_, by simp, ?_⟩
    · rw [isBoundary_iff]
      exact ⟨pre ++ [c], mid ++ post, by simp, by simp⟩
    · have := between_size_append pre [c] (mid ++ post)
      simpa using this

end TreeEdit.Text
