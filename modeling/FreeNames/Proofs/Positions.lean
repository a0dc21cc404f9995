import Mathlib.Data.Set.Card
import FreeNames.Proofs.Bytes
import FreeNames.Text.Position

/-!
# FreeNames.Proofs.Positions

Lines and columns of offsets.  What ends a line is told from the text on both sides of
it (`EndsLine`), while the starts of lines are collected in one pass.  Both agree, one
character at a time (`mem_lineStartsFrom_iff`), so the line of an offset is the number
of line ends before it.

Offsets of lines ascend, so that the line of an offset can be looked up by bisection;
`lookup?` gives nothing where that would look outside of the list.

Main statement: `positions_embed`.
-/

namespace FreeNames.Text

/-! ## line ends -/

/-- A line feed, a carriage return, both in a row, U+2028 or U+2029, with what stands before
and after it. -/
def IsLineEnd (front ending back : Text) : Prop :=
  ending = ['\r', '\n'] ∨ (ending = ['\n'] ∧ front.getLast? ≠ some '\r') ∨
    (ending = ['\r'] ∧ back.head? ≠ some '\n') ∨ ending = ['\u2028'] ∨ ending = ['\u2029']

/-- The bytes that end a line of a text. -/
def EndsLine (text : Text) (s : Span) : Prop :=
  ∃ front ending back, text = front ++ (ending ++ back) ∧ IsLineEnd front ending back ∧
    s = ⟨front.size, front.size + ending.size⟩

/-- A line ends after a character, given what follows it. -/
def endsAfter (c : Char) (back : Text) : Bool :=
  isLineTerminator c && !(c = '\r' && back.head? = some '\n')

theorem isLineTerminator_iff {c : Char} :
    isLineTerminator c = true ↔ c = '\n' ∨ c = '\r' ∨ c = '\u2028' ∨ c = '\u2029' := by
  have hnat (d : Char) : c.toNat = d.toNat ↔ c = d := Char.toNat_inj
  have hline := hnat '\u2028'
  have hparagraph := hnat '\u2029'
  simp only [isLineTerminator, Bool.or_eq_true, decide_eq_true_eq, or_assoc]
  rw [← hline, ← hparagraph]
  rfl

theorem lineStartsFrom_cons (offset : Nat) (c : Char) (cs : Text) :
    lineStartsFrom offset (c :: cs) =
      if endsAfter c cs then (offset + c.utf8Size) :: lineStartsFrom (offset + c.utf8Size) cs
      else lineStartsFrom (offset + c.utf8Size) cs := by
  by_cases hpair : c = '\r' ∧ cs.head? = some '\n'
  · obtain ⟨rfl, hhead⟩ := hpair
    obtain ⟨rest, rfl⟩ := List.head?_eq_some_iff.mp hhead
    rfl
  · have hsame : endsAfter c cs = isLineTerminator c := by
      rw [endsAfter, ← Bool.decide_and, decide_eq_false hpair, Bool.not_false, Bool.and_true]
    rw [hsame, lineStartsFrom]
    · intro rest hc hcs
      exact hpair ⟨hc, by simp [hcs]⟩

/-- Lines start where a character ends one. -/
theorem mem_lineStartsFrom_iff {offset e : Nat} {text : Text} :
    e ∈ lineStartsFrom offset text ↔ ∃ front c back, text = front ++ c :: back ∧
      endsAfter c back = true ∧ e = offset + size (front ++ [c]) := by
  induction text generalizing offset with
  | nil => simp [lineStartsFrom]
  | cons c cs ih =>
      have hsplit : e ∈ lineStartsFrom offset (c :: cs) ↔
          (endsAfter c cs = true ∧ e = offset + c.utf8Size) ∨
            e ∈ lineStartsFrom (offset + c.utf8Size) cs := by
        rw [lineStartsFrom_cons]
        split <;> simp [*]
      rw [hsplit, ih]
      constructor
      · rintro (⟨hends, rfl⟩ | ⟨front, d, back, rfl, hends, rfl⟩)
        · exact ⟨[], c, cs, rfl, hends, by simp⟩
        · exact ⟨c :: front, d, back, rfl, hends, by simp [Nat.add_assoc]⟩
      · rintro ⟨front, d, back, htext, hends, rfl⟩
        cases front with
        | nil =>
            obtain ⟨rfl, rfl⟩ := List.cons.inj htext
            exact Or.inl ⟨hends, by simp⟩
        | cons f front =>
            obtain ⟨rfl, rfl⟩ := List.cons.inj htext
            exact Or.inr ⟨front, d, back, rfl, hends, by simp [Nat.add_assoc]⟩

theorem endsAfter_iff {c : Char} {back : Text} :
    endsAfter c back = true ↔
      isLineTerminator c = true ∧ ¬(c = '\r' ∧ back.head? = some '\n') := by
  rw [endsAfter, ← Bool.decide_and, Bool.and_eq_true, Bool.not_eq_true', decide_eq_false_iff_not]

/-- What ends a line is a pair, or one character that is not a part of a pair. -/
theorem isLineEnd_iff {front ending back : Text} :
    IsLineEnd front ending back ↔ ending = ['\r', '\n'] ∨ ∃ c, ending = [c] ∧
      endsAfter c back = true ∧ ¬(c = '\n' ∧ front.getLast? = some '\r') := by
  simp only [endsAfter_iff, isLineTerminator_iff]
  constructor
  · rintro (hpair | ⟨rfl, hfront⟩ | ⟨rfl, hback⟩ | rfl | rfl)
    · exact Or.inl hpair
    · exact Or.inr ⟨'\n', rfl, ⟨by decide, by simp⟩, by simpa using hfront⟩
    · exact Or.inr ⟨'\r', rfl, ⟨by decide, by simpa using hback⟩, by simp⟩
    · exact Or.inr ⟨_, rfl, ⟨by decide, by simp⟩, by simp⟩
    · exact Or.inr ⟨_, rfl, ⟨by decide, by simp⟩, by simp⟩
  · rintro (hpair | ⟨c, rfl, ⟨rfl | rfl | rfl | rfl, hback⟩, hfront⟩)
    · exact Or.inl hpair
    · exact Or.inr (Or.inl ⟨rfl, by simpa using hfront⟩)
    · exact Or.inr (Or.inr (Or.inl ⟨rfl, by simpa using hback⟩))
    · exact Or.inr (Or.inr (Or.inr (Or.inl rfl)))
    · exact Or.inr (Or.inr (Or.inr (Or.inr rfl)))

/-- Lines start where one has ended. -/
theorem mem_lineStartsFrom_iff_endsLine {text : Text} {e : Nat} :
    e ∈ lineStartsFrom 0 text ↔ ∃ s, EndsLine text s ∧ s.stop = e := by
  rw [mem_lineStartsFrom_iff]
  constructor
  · rintro ⟨front, c, back, rfl, hends, rfl⟩
    by_cases hpair : c = '\n' ∧ front.getLast? = some '\r'
    · obtain ⟨rfl, hlast⟩ := hpair
      obtain ⟨before, rfl⟩ := List.getLast?_eq_some_iff.mp hlast
      exact ⟨_, ⟨before, ['\r', '\n'], back, by simp, Or.inl rfl, rfl⟩, by simp⟩
    · refine ⟨_, ⟨front, [c], back, rfl, isLineEnd_iff.mpr ?_, rfl⟩, by simp⟩
      exact Or.inr ⟨c, rfl, hends, hpair⟩
  · rintro ⟨_, ⟨front, ending, back, rfl, hend, rfl⟩, rfl⟩
    rcases isLineEnd_iff.mp hend with rfl | ⟨c, rfl, hends, -⟩
    · exact ⟨front ++ ['\r'], '\n', back, by simp, rfl, by simp⟩
    · exact ⟨front, c, back, rfl, hends, by simp⟩

/-- Two fronts of a text that take the same bytes are the same. -/
theorem append_inj_of_size {front front' back back' : Text}
    (h : front ++ back = front' ++ back') (hsize : front.size = front'.size) :
    front = front' ∧ back = back' := by
  have hcut := splitBytes?_append front back
  rw [h, hsize, splitBytes?_append] at hcut
  simpa [eq_comm] using hcut

/-- Where a line has ended, one thing has ended it. -/
theorem EndsLine.eq_of_stop {text : Text} {s t : Span} (hs : EndsLine text s)
    (ht : EndsLine text t) (hstop : s.stop = t.stop) : s = t := by
  obtain ⟨front, ending, back, rfl, hend, rfl⟩ := hs
  obtain ⟨front', ending', back', htext, hend', rfl⟩ := ht
  rw [← List.append_assoc, ← List.append_assoc] at htext
  obtain ⟨hupto, rfl⟩ := append_inj_of_size htext (by simpa using hstop)
  suffices hending : ending = ending' by
    subst hending
    rw [List.append_cancel_right hupto]
  -- a pair ends with a line feed after a carriage return, which nothing else does
  have hpair {a b : Text} {c : Char} (h : a ++ ['\r', '\n'] = b ++ [c]) :
      c = '\n' ∧ b.getLast? = some '\r' := by
    rw [show ['\r', '\n'] = ['\r'] ++ ['\n'] from rfl, ← List.append_assoc] at h
    obtain ⟨rfl, hc⟩ := List.append_inj' h rfl
    exact ⟨(List.cons.inj hc).1.symm, List.getLast?_concat⟩
  rcases isLineEnd_iff.mp hend with rfl | ⟨c, rfl, -, hc⟩
  · rcases isLineEnd_iff.mp hend' with rfl | ⟨c', rfl, -, hc'⟩
    · rfl
    · exact absurd (hpair hupto) hc'
  · rcases isLineEnd_iff.mp hend' with rfl | ⟨c', rfl, -, hc'⟩
    · exact absurd (hpair hupto.symm) hc
    · exact (List.append_inj' hupto rfl).2

/-! ## offsets of lines -/

theorem lineStartsFrom_bounds {offset e : Nat} {text : Text} (h : e ∈ lineStartsFrom offset text) :
    offset < e ∧ e ≤ offset + text.size := by
  obtain ⟨front, c, back, rfl, -, rfl⟩ := mem_lineStartsFrom_iff.mp h
  have hpos := c.utf8Size_pos
  simp only [size_append, size_cons, size_nil]
  omega

theorem pairwise_lineStartsFrom (offset : Nat) (text : Text) :
    (lineStartsFrom offset text).Pairwise (· < ·) := by
  induction text generalizing offset with
  | nil => exact .nil
  | cons c cs ih =>
      rw [lineStartsFrom_cons]
      split
      · exact .cons (fun e he => (lineStartsFrom_bounds he).1) (ih _)
      · exact ih _

/-- Offsets of lines ascend. -/
theorem pairwise_lineStarts (text : Text) : text.lineStarts.Pairwise (· < ·) :=
  .cons (fun _ he => (lineStartsFrom_bounds he).1) (pairwise_lineStartsFrom 0 text)

theorem le_size_of_mem_lineStarts {text : Text} {e : Nat} (h : e ∈ text.lineStarts) :
    e ≤ text.size := by
  rcases List.mem_cons.mp h with rfl | h
  · exact Nat.zero_le _
  · simpa using (lineStartsFrom_bounds h).2

theorem isBoundary_of_mem_lineStarts {text : Text} {e : Nat} (h : e ∈ text.lineStarts) :
    isBoundary e text = true := by
  rcases List.mem_cons.mp h with rfl | h
  · exact isBoundary_iff.mpr ⟨[], text, rfl, rfl⟩
  · obtain ⟨front, c, back, rfl, -, rfl⟩ := mem_lineStartsFrom_iff.mp h
    exact isBoundary_iff.mpr ⟨front ++ [c], back, by simp, by simp⟩

/-! ## looking up lines -/

/-- The first `k` of some offsets are those up to another one. -/
structure Divides (starts : List Nat) (stop k : Nat) : Prop where
  le_length : k ≤ starts.length
  upto : ∀ i start, starts[i]? = some start → i < k → start ≤ stop
  past : ∀ i start, starts[i]? = some start → k ≤ i → stop < start

theorem Divides.filter_eq {starts : List Nat} {stop k : Nat} (h : Divides starts stop k) :
    starts.filter (· ≤ stop) = starts.take k := by
  have hupto : (starts.take k).filter (· ≤ stop) = starts.take k := by
    refine List.filter_eq_self.mpr fun start hmem => ?_
    obtain ⟨i, hi⟩ := List.mem_iff_getElem?.mp hmem
    rw [List.getElem?_take, Option.ite_none_right_eq_some] at hi
    exact decide_eq_true (h.upto i start hi.2 hi.1)
  have hpast : (starts.drop k).filter (· ≤ stop) = [] := by
    refine List.filter_eq_nil_iff.mpr fun start hmem => ?_
    obtain ⟨i, hi⟩ := List.mem_iff_getElem?.mp hmem
    rw [List.getElem?_drop] at hi
    have hlt := h.past _ _ hi (Nat.le_add_right k i)
    simpa using hlt
  conv_lhs => rw [← List.take_append_drop k starts, List.filter_append, hupto, hpast]
  exact List.append_nil _

/-- How many offsets of a list, between two of its places, are up to another one, by
bisection; nothing if that looks outside of the list. -/
def bisect? (starts : List Nat) (stop low high : Nat) : Option Nat :=
  if low < high then
    match starts[(low + high) / 2]? with
    | none => none
    | some start =>
      if start ≤ stop then bisect? starts stop ((low + high) / 2 + 1) high
      else bisect? starts stop low ((low + high) / 2)
  else
    some low
termination_by high - low

theorem le_of_getElem? {starts : List Nat} (h : starts.Pairwise (· < ·)) {i j a b : Nat}
    (hi : starts[i]? = some a) (hj : starts[j]? = some b) (hle : i ≤ j) : a ≤ b := by
  obtain ⟨hi', rfl⟩ := List.getElem?_eq_some_iff.mp hi
  obtain ⟨hj', rfl⟩ := List.getElem?_eq_some_iff.mp hj
  rcases Nat.eq_or_lt_of_le hle with rfl | hlt
  · exact Nat.le_refl _
  · exact Nat.le_of_lt (List.pairwise_iff_getElem.mp h i j hi' hj' hlt)

/-- Bisection of ascending offsets finds where they pass another one. -/
theorem exists_bisect?_eq {starts : List Nat} (hsorted : starts.Pairwise (· < ·))
    {stop low high : Nat} (hle : low ≤ high) (hlength : high ≤ starts.length)
    (hupto : ∀ i start, starts[i]? = some start → i < low → start ≤ stop)
    (hpast : ∀ i start, starts[i]? = some start → high ≤ i → stop < start) :
    ∃ k, bisect? starts stop low high = some k ∧ Divides starts stop k := by
  fun_induction bisect? starts stop low high with
  | case1 low high hlt hnone =>
      rw [List.getElem?_eq_none_iff] at hnone
      omega
  | case2 low high hlt start hstart hstop ih =>
      refine ih (by omega) hlength (fun i a ha hi => ?_) hpast
      exact Nat.le_trans (le_of_getElem? hsorted ha hstart (by omega)) hstop
  | case3 low high hlt start hstart hstop ih =>
      refine ih (by omega) (by omega) hupto fun i a ha hi => ?_
      exact Nat.lt_of_lt_of_le (Nat.lt_of_not_le hstop) (le_of_getElem? hsorted hstart ha hi)
  | case4 low high hlt =>
      obtain rfl : low = high := by omega
      exact ⟨low, rfl, hlength, hupto, hpast⟩

/-- UTF-16 code units between two offsets, or bytes if the second is inside a character. -/
def columnFrom (text : Text) (start stop : Nat) : Nat :=
  match text.slice? start stop with
  | some front => units16 front
  | none => stop - start

/-- The line and column of an offset, looked up by bisection; nothing if that looks outside of
the list of lines. -/
def lookup? (text : Text) (offset : Nat) : Option Position := do
  let stop := min offset text.size
  let k ← bisect? text.lineStarts stop 0 text.lineStarts.length
  let start ← text.lineStarts[k - 1]?
  return ⟨k - 1, columnFrom text start stop⟩

theorem exists_divides (text : Text) (stop : Nat) :
    ∃ k, bisect? text.lineStarts stop 0 text.lineStarts.length = some k ∧
      Divides text.lineStarts stop k := by
  refine exists_bisect?_eq (pairwise_lineStarts text) (Nat.zero_le _) (Nat.le_refl _) nofun
    fun i start hi hle => ?_
  rw [List.getElem?_eq_none hle] at hi
  cases hi

/-- The first line starts at the start of the text, so there is one to be found. -/
theorem Divides.pos {text : Text} {stop k : Nat} (h : Divides text.lineStarts stop k) : 0 < k := by
  rcases Nat.eq_zero_or_pos k with rfl | hpos
  · exact absurd (h.past 0 0 rfl (Nat.le_refl 0)) (Nat.not_lt_zero _)
  · exact hpos

/-- The position of an offset, from the last line that starts up to it. -/
theorem Divides.exists_positionAt {text : Text} {offset k : Nat}
    (h : Divides text.lineStarts (min offset text.size) k) :
    ∃ start, text.lineStarts[k - 1]? = some start ∧
      text.positionAt offset = ⟨k - 1, columnFrom text start (min offset text.size)⟩ := by
  have hpos := h.pos
  have hlt : k - 1 < text.lineStarts.length := by have := h.le_length; omega
  refine ⟨text.lineStarts[k - 1], List.getElem?_eq_getElem hlt, ?_⟩
  have hlength : (text.lineStarts.take k).length = k := List.length_take_of_le h.le_length
  have hlast : (text.lineStarts.take k).getLastD 0 = text.lineStarts[k - 1] := by
    rw [List.getLastD_eq_getLast?, List.getLast?_eq_getElem?, hlength, List.getElem?_take,
      if_pos (by omega), List.getElem?_eq_getElem hlt, Option.getD_some]
  unfold positionAt
  simp only [h.filter_eq, hlength, hlast]
  rfl

theorem lookup?_eq (text : Text) (offset : Nat) :
    text.lookup? offset = some (text.positionAt offset) := by
  obtain ⟨k, hbisect, hdivides⟩ := exists_divides text (min offset text.size)
  obtain ⟨start, hstart, hposition⟩ := hdivides.exists_positionAt
  simp [lookup?, hbisect, hstart, hposition]

/-! ## lines -/

/-- As many lines have ended as there are starts of lines after the first. -/
theorem ncard_endsLine (text : Text) (stop : Nat) :
    {s | EndsLine text s ∧ s.stop ≤ stop}.ncard =
      ((lineStartsFrom 0 text).filter (· ≤ stop)).length := by
  have hinj : Set.InjOn Span.stop {s | EndsLine text s ∧ s.stop ≤ stop} :=
    fun s hs t ht hstop => hs.1.eq_of_stop ht.1 hstop
  have himage : Span.stop '' {s | EndsLine text s ∧ s.stop ≤ stop} =
      ((lineStartsFrom 0 text).filter (· ≤ stop)).toFinset := by
    ext e
    simp only [Set.mem_image, Set.mem_ofPred_eq, List.coe_toFinset, List.mem_filter,
      decide_eq_true_eq, mem_lineStartsFrom_iff_endsLine]
    constructor
    · rintro ⟨s, ⟨hs, hle⟩, rfl⟩
      exact ⟨⟨s, hs, rfl⟩, hle⟩
    · rintro ⟨⟨s, hs, rfl⟩, hle⟩
      exact ⟨s, ⟨hs, hle⟩, rfl⟩
  have hnodup : ((lineStartsFrom 0 text).filter (· ≤ stop)).Nodup :=
    ((pairwise_lineStartsFrom 0 text).imp Nat.ne_of_lt).filter _
  rw [← hinj.ncard_image, himage, Set.ncard_coe_finset,
    List.toFinset_card_of_nodup hnodup]

/-- The line of an offset is the number of lines that have ended. -/
theorem line_positionAt (text : Text) (offset : Nat) :
    (text.positionAt offset).line =
      {s | EndsLine text s ∧ s.stop ≤ min offset text.size}.ncard := by
  rw [ncard_endsLine]
  change (text.lineStarts.filter (· ≤ min offset text.size)).length - 1 = _
  rw [lineStarts, List.filter_cons_of_pos (by simp), List.length_cons, Nat.add_sub_cancel]

/-! ## columns -/

theorem units16_append (as bs : Text) : units16 (as ++ bs) = units16 as + units16 bs := by
  induction as with
  | nil => simp [units16]
  | cons c cs ih => rw [List.cons_append, units16, units16, ih, Nat.add_assoc]

theorem units16_pos {text : Text} (h : text ≠ []) : 0 < units16 text := by
  cases text with
  | nil => exact absurd rfl h
  | cons c cs =>
      rw [units16]
      split <;> omega

/-- Characters that take two code units take four bytes. -/
theorem utf8Size_of_not_lt {c : Char} (h : ¬c.toNat < 0x10000) : c.utf8Size = 4 := by
  have hlt {v : UInt32} (hv : v.toNat < 0x10000) : ¬c.val ≤ v := fun hle =>
    h (Nat.lt_of_le_of_lt (UInt32.le_iff_toNat_le.mp hle) hv)
  rw [Char.utf8Size, if_neg (hlt (by decide)), if_neg (hlt (by decide)), if_neg (hlt (by decide))]

theorem units16_le_size (text : Text) : units16 text ≤ text.size := by
  induction text with
  | nil => exact Nat.le_refl _
  | cons c cs ih =>
      have hpos := c.utf8Size_pos
      rw [units16, size_cons]
      split
      · omega
      · next hlong =>
          rw [utf8Size_of_not_lt hlong]
          omega

theorem columnFrom_le (text : Text) (start stop : Nat) : columnFrom text start stop ≤ stop - start := by
  rw [columnFrom]
  split
  · next front hslice =>
      obtain ⟨back, -, hcut⟩ := Option.bind_eq_some_iff.mp hslice
      obtain ⟨⟨middle, rest⟩, hsplit, rfl⟩ := Option.map_eq_some_iff.mp hcut
      rw [← (eq_append_of_splitBytes? hsplit).2]
      exact units16_le_size middle
  · exact Nat.le_refl _

theorem length_lineStartsFrom_le (offset : Nat) (text : Text) :
    (lineStartsFrom offset text).length ≤ text.size := by
  induction text generalizing offset with
  | nil => exact Nat.le_refl _
  | cons c cs ih =>
      have hpos := c.utf8Size_pos
      have hrest := ih (offset + c.utf8Size)
      rw [lineStartsFrom_cons, size_cons]
      split
      · rw [List.length_cons]
        omega
      · omega

theorem positionAt_bounds (text : Text) (offset : Nat) :
    (text.positionAt offset).line < text.lineStarts.length ∧
      (text.positionAt offset).line ≤ text.size ∧ (text.positionAt offset).column ≤ text.size := by
  obtain ⟨k, -, hdivides⟩ := exists_divides text (min offset text.size)
  obtain ⟨start, hstart, hposition⟩ := hdivides.exists_positionAt
  rw [hposition]
  have hlt : k - 1 < text.lineStarts.length := (List.getElem?_eq_some_iff.mp hstart).1
  have hlength := length_lineStartsFrom_le 0 text
  have hcolumn := columnFrom_le text start (min offset text.size)
  refine ⟨hlt, ?_, ?_⟩
  · rw [lineStarts, List.length_cons] at hlt
    exact Nat.le_trans (Nat.le_of_lt_succ hlt) hlength
  · exact Nat.le_trans hcolumn (Nat.le_trans (Nat.sub_le _ _) (Nat.min_le_right _ _))

/-- The line that a boundary is on: what comes before it and how much of it comes before the
boundary. -/
structure OnLine (text : Text) (offset k : Nat) (front middle back : Text) : Prop where
  divides : Divides text.lineStarts offset k
  start : text.lineStarts[k - 1]? = some front.size
  text_eq : text = front ++ (middle ++ back)
  offset_eq : front.size + middle.size = offset
  position : text.positionAt offset = ⟨k - 1, units16 middle⟩

theorem exists_onLine {text : Text} {offset : Nat} (h : isBoundary offset text = true) :
    ∃ k front middle back, OnLine text offset k front middle back := by
  have hstop : min offset text.size = offset := Nat.min_eq_left (le_size_of_isBoundary h)
  obtain ⟨k, -, hdivides⟩ := exists_divides text (min offset text.size)
  obtain ⟨start, hstart, hposition⟩ := hdivides.exists_positionAt
  rw [hstop] at hdivides hposition
  have hpos := hdivides.pos
  have hle := hdivides.upto _ _ hstart (by omega)
  obtain ⟨front, middle, back, rfl, rfl, hoffset⟩ := exists_parts_of_isBoundary hle
    (isBoundary_of_mem_lineStarts (List.mem_of_getElem? hstart)) h
  refine ⟨k, front, middle, back, hdivides, hstart, rfl, hoffset, ?_⟩
  rw [hposition, columnFrom, ← hoffset, slice?_append]

namespace OnLine

variable {text front middle back front' middle' back' : Text} {offset offset' k k' : Nat}

/-- Of two boundaries in order the first is on an earlier line, or before the other on the
same line. -/
theorem lt (h : OnLine text offset k front middle back)
    (h' : OnLine text offset' k' front' middle' back') (hlt : offset < offset') :
    k - 1 < k' - 1 ∨ k - 1 = k' - 1 ∧ units16 middle < units16 middle' := by
  have hpos := h.divides.pos
  have hpos' := h'.divides.pos
  have hstart := h.divides.upto _ _ h.start (by omega)
  by_cases hlater : front'.size ≤ offset
  · -- the line that the second is on has started before the first
    have hk : k = k' := by
      have hle : ¬k ≤ k' - 1 := fun hle =>
        Nat.not_lt_of_le hlater (h.divides.past _ _ h'.start hle)
      have hle' : ¬k' ≤ k - 1 := fun hle => by
        have := h'.divides.past _ _ h.start hle
        omega
      omega
    subst hk
    have hsize : front.size = front'.size := Option.some.inj (h.start.symm.trans h'.start)
    obtain ⟨rfl, hrest⟩ := append_inj_of_size (h.text_eq.symm.trans h'.text_eq) hsize
    have hmiddle : middle.size < middle'.size := by
      have := h.offset_eq
      have := h'.offset_eq
      omega
    rcases List.append_eq_append_iff.mp hrest with ⟨more, rfl, -⟩ | ⟨more, rfl, -⟩
    · have hmore : more ≠ [] := by
        rintro rfl
        simp at hmiddle
      have hunits := units16_pos hmore
      rw [units16_append]
      omega
    · rw [size_append] at hmiddle
      omega
  · left
    have hle : ¬k' - 1 < k := fun hlt' => hlater (h.divides.upto _ _ h'.start hlt')
    omega

/-- A boundary's line starts where the last line has ended. -/
theorem exists_start (h : OnLine text offset k front middle back) :
    (front.size = 0 ∨ ∃ s, EndsLine text s ∧ s.stop = front.size) ∧ front.size ≤ offset ∧
      ∀ s, EndsLine text s → s.stop ≤ offset → s.stop ≤ front.size := by
  have hpos := h.divides.pos
  refine ⟨?_, h.divides.upto _ _ h.start (by omega), fun s hs hle => ?_⟩
  · rcases List.mem_cons.mp (List.mem_of_getElem? h.start) with hzero | hmem
    · exact Or.inl hzero
    · exact Or.inr (mem_lineStartsFrom_iff_endsLine.mp hmem)
  · have hmem : s.stop ∈ text.lineStarts :=
      List.mem_cons_of_mem _ (mem_lineStartsFrom_iff_endsLine.mpr ⟨s, hs, rfl⟩)
    obtain ⟨i, hi⟩ := List.mem_iff_getElem?.mp hmem
    have hlt : i < k := Nat.lt_of_not_le fun hle' =>
      Nat.not_lt_of_le hle (h.divides.past _ _ hi hle')
    exact le_of_getElem? (pairwise_lineStarts text) hi h.start (by omega)

end OnLine

/-- Lines and columns of offsets: how many lines have ended before a boundary and how many
UTF-16 code units stand between the last line end and it, that positions ascend as
boundaries do, that past the end there is the position of the end, and that the lookup finds
each position, with numbers no greater than the size of the text. -/
theorem positions_embed (text : Text) :
    (∀ offset, text.isBoundary offset = true →
      (text.positionAt offset).line = {s | EndsLine text s ∧ s.stop ≤ offset}.ncard ∧
      ∃ start part, (start = 0 ∨ ∃ s, EndsLine text s ∧ s.stop = start) ∧ start ≤ offset ∧
        (∀ s, EndsLine text s → s.stop ≤ offset → s.stop ≤ start) ∧
        text.slice? start offset = some part ∧
        (text.positionAt offset).column = part.units16) ∧
    (∀ first second, text.isBoundary first = true → text.isBoundary second = true →
      first < second → Prod.Lex (· < ·) (· < ·)
        ((text.positionAt first).line, (text.positionAt first).column)
        ((text.positionAt second).line, (text.positionAt second).column)) ∧
    (∀ offset, text.size ≤ offset → text.positionAt offset = text.positionAt text.size) ∧
    (∀ offset, text.lookup? offset = some (text.positionAt offset) ∧
      (text.positionAt offset).line < text.lineStarts.length ∧
      (text.positionAt offset).line ≤ text.size ∧ (text.positionAt offset).column ≤ text.size) ∧
    ∀ start ∈ text.lineStarts, start ≤ text.size := by
  refine ⟨fun offset hoffset => ?_, fun first second hfirst hsecond hlt => ?_,
    fun offset hle => ?_, fun offset => ?_, fun start => le_size_of_mem_lineStarts⟩
  · have hstop : min offset text.size = offset := Nat.min_eq_left (le_size_of_isBoundary hoffset)
    obtain ⟨k, front, middle, back, hline⟩ := exists_onLine hoffset
    obtain ⟨hstart, hle, hlast⟩ := hline.exists_start
    refine ⟨by rw [line_positionAt, hstop], front.size, middle, hstart, hle, hlast, ?_,
      by rw [hline.position]⟩
    rw [hline.text_eq, ← hline.offset_eq, slice?_append]
  · obtain ⟨k, front, middle, back, hline⟩ := exists_onLine hfirst
    obtain ⟨k', front', middle', back', hline'⟩ := exists_onLine hsecond
    rw [hline.position, hline'.position, Prod.lex_def]
    exact hline.lt hline' hlt
  · unfold positionAt
    rw [Nat.min_eq_right hle, Nat.min_self]
  · exact ⟨lookup?_eq text offset, positionAt_bounds text offset⟩

/-- A text with all line ends: an offset between a carriage return and its line feed, one after
characters of four and three bytes, and one past the end. -/
theorem positions_embed_all_ends :
    ∃ text : Text, text = "a\r\n\rx\u2028𠮷€b\n\u2029".toList ∧
      text.isBoundary 2 = true ∧ text.positionAt 2 = ⟨0, 2⟩ ∧
      {s | EndsLine text s ∧ s.stop ≤ 2}.ncard = 0 ∧
      text.isBoundary 15 = true ∧ text.positionAt 15 = ⟨3, 3⟩ ∧
      {s | EndsLine text s ∧ s.stop ≤ 15}.ncard = 3 ∧
      Prod.Lex (· < ·) (· < ·) (0, 2) (3, 3) ∧ text.size = 20 ∧
      text.positionAt 50 = text.positionAt 20 ∧ text.lookup? 50 = some (text.positionAt 50) := by
  obtain ⟨text, htext⟩ : ∃ text : Text, text = "a\r\n\rx\u2028𠮷€b\n\u2029".toList := ⟨_, rfl⟩
  have hfirst : text.isBoundary 2 = true ∧ text.positionAt 2 = ⟨0, 2⟩ := by
    rw [htext]
    decide +kernel
  have hsecond : text.isBoundary 15 = true ∧ text.positionAt 15 = ⟨3, 3⟩ := by
    rw [htext]
    decide +kernel
  have hsize : text.size = 20 := by
    rw [htext]
    decide +kernel
  obtain ⟨hlines, hordered, hpast, hlookup, -⟩ := positions_embed text
  have hline := (hlines 2 hfirst.1).1
  have hline' := (hlines 15 hsecond.1).1
  have hlex := hordered 2 15 hfirst.1 hsecond.1 (by decide)
  have hend := hpast 50 (by omega)
  rw [hfirst.2] at hline hlex
  rw [hsecond.2] at hline' hlex
  rw [hsize] at hend
  exact ⟨text, htext, hfirst.1, hfirst.2, hline.symm, hsecond.1, hsecond.2, hline'.symm, hlex, hsize,
    hend, (hlookup 50).1⟩

end FreeNames.Text
