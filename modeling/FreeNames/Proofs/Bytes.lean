import FreeNames.Text

/-!
# FreeNames.Proofs.Bytes

Cutting a text at byte offsets.  A cut succeeds exactly at the sizes of the
fronts of the text (`splitBytes?_eq_some_iff`), so two cuts of one text at the
same offset agree.  Everything about offsets elsewhere goes through this.
-/

namespace FreeNames.Text

/-! ## sizes -/

@[simp] theorem size_nil : size [] = 0 := rfl

@[simp] theorem size_cons (c : Char) (cs : Text) : size (c :: cs) = c.utf8Size + size cs := rfl

@[simp] theorem size_append (as bs : Text) : size (as ++ bs) = size as + size bs := by
  induction as with
  | nil => simp
  | cons c cs ih => simp only [List.cons_append, size_cons, ih]; omega

/-- Only the empty text takes no bytes. -/
theorem size_eq_zero_iff {cs : Text} : size cs = 0 ↔ cs = [] := by
  cases cs with
  | nil => simp
  | cons c cs =>
      have hpos := c.utf8Size_pos
      simp only [size_cons, reduceCtorEq, iff_false]
      omega

theorem size_pos {cs : Text} (h : cs ≠ []) : 0 < size cs :=
  Nat.pos_of_ne_zero fun hz => h (size_eq_zero_iff.mp hz)

/-! ## cutting -/

/-- A text is cut into a front and a back at the size of the front. -/
theorem splitBytes?_append (front back : Text) :
    splitBytes? (size front) (front ++ back) = some (front, back) := by
  induction front with
  | nil => simp [splitBytes?]
  | cons c cs ih =>
      have hpos := c.utf8Size_pos
      obtain ⟨n, hn⟩ : ∃ n, size (c :: cs) = n + 1 :=
        ⟨size (c :: cs) - 1, by simp only [size_cons]; omega⟩
      have hrest : n + 1 - c.utf8Size = size cs := by
        simp only [size_cons] at hn
        omega
      have hle : c.utf8Size ≤ n + 1 := by
        simp only [size_cons] at hn
        omega
      rw [hn, List.cons_append, splitBytes?, if_pos hle, hrest, ih]
      rfl

/-- A cut gives two parts of the text, the first of the size asked for. -/
theorem eq_append_of_splitBytes? {n : Nat} {cs front back : Text}
    (h : splitBytes? n cs = some (front, back)) : cs = front ++ back ∧ size front = n := by
  fun_induction splitBytes? n cs generalizing front with
  | case1 cs =>
      simp only [Option.some.injEq, Prod.mk.injEq] at h
      obtain ⟨hfront, hback⟩ := h
      subst hfront hback
      exact ⟨rfl, rfl⟩
  | case2 n => simp at h
  | case3 n c cs hle ih =>
      obtain ⟨⟨front', back'⟩, hcut, hpair⟩ := Option.map_eq_some_iff.mp h
      simp only [Prod.mk.injEq] at hpair
      obtain ⟨hfront, hback⟩ := hpair
      subst hfront hback
      obtain ⟨hcs, hsize⟩ := ih hcut
      refine ⟨by rw [hcs, List.cons_append], ?_⟩
      rw [size_cons, hsize]
      omega
  | case4 n c cs hle => simp at h

/-- A text can be cut exactly at the sizes of its fronts. -/
theorem splitBytes?_eq_some_iff {n : Nat} {cs front back : Text} :
    splitBytes? n cs = some (front, back) ↔ cs = front ++ back ∧ size front = n := by
  constructor
  · exact eq_append_of_splitBytes?
  · rintro ⟨rfl, rfl⟩
    exact splitBytes?_append front back

theorem isBoundary_iff {n : Nat} {cs : Text} :
    isBoundary n cs = true ↔ ∃ front back, cs = front ++ back ∧ size front = n := by
  rw [isBoundary, Option.isSome_iff_exists]
  constructor
  · rintro ⟨⟨front, back⟩, h⟩
    exact ⟨front, back, eq_append_of_splitBytes? h⟩
  · rintro ⟨front, back, h⟩
    exact ⟨(front, back), splitBytes?_eq_some_iff.mpr h⟩

/-- A boundary is not past the end. -/
theorem le_size_of_isBoundary {n : Nat} {cs : Text} (h : isBoundary n cs = true) :
    n ≤ size cs := by
  obtain ⟨front, back, rfl, rfl⟩ := isBoundary_iff.mp h
  simp

theorem dropBytes?_append (front back : Text) :
    dropBytes? (size front) (front ++ back) = some back := by
  rw [dropBytes?, splitBytes?_append]
  rfl

/-- What stands between two parts of a text is found at their offsets. -/
theorem slice?_append (front middle back : Text) :
    slice? (size front) (size front + size middle) (front ++ (middle ++ back)) = some middle := by
  rw [slice?, dropBytes?_append, Nat.add_sub_cancel_left]
  simp [splitBytes?_append]

/-- Two boundaries of a text in order cut it in three. -/
theorem exists_parts_of_isBoundary {start stop : Nat} {cs : Text} (hle : start ≤ stop)
    (hstart : isBoundary start cs = true) (hstop : isBoundary stop cs = true) :
    ∃ front middle back, cs = front ++ (middle ++ back) ∧ size front = start ∧
      size front + size middle = stop := by
  obtain ⟨front, rest, rfl, rfl⟩ := isBoundary_iff.mp hstart
  obtain ⟨upto, back, hcut, rfl⟩ := isBoundary_iff.mp hstop
  obtain ⟨middle, rfl⟩ : ∃ middle, upto = front ++ middle := by
    rcases List.append_eq_append_iff.mp hcut with ⟨middle, hm, -⟩ | ⟨extra, he, -⟩
    · exact ⟨middle, hm⟩
    · -- the front is not the longer one: it takes no more bytes
      have hextra : extra = [] := by
        rw [he, size_append] at hle
        exact size_eq_zero_iff.mp (by omega)
      subst hextra
      exact ⟨[], by simpa using he.symm⟩
  refine ⟨front, middle, back, ?_, rfl, by rw [size_append]⟩
  rw [hcut, List.append_assoc]

end FreeNames.Text
