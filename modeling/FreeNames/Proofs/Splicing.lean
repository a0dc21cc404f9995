import FreeNames.Edit
import FreeNames.Proofs.Bytes
import Mathlib.Data.List.Chain

/-!
# FreeNames.Proofs.Splicing

Making edits one after the other gives what the edits say at once.  All edits
give their places in the text as it was, while the text they are made in grows
and shrinks on the way.  What keeps the two together is `Reached`: behind what
the edits so far have written stands the rest of the text as it was, at the
offset that `Progress.moved` says.

* `spliced` — the text that edits ask for, in offsets of the text as it was;
* `Fit` — edits that can be made: in order, inside the text, between characters;
* `splice_eq_spliced_iff_fit` — exactly these are made, and as asked for.
-/

namespace FreeNames

/-- An offset between two characters of a text, or at either end. -/
def Text.Boundary (n : Nat) (text : Text) : Prop :=
  ∃ front back, text = front ++ back ∧ size front = n

namespace Edit

/-- What edits make of a text from an offset on: what stands between two edits
is kept, and what an edit covers is replaced. -/
def spliced (text : Text) (previous : Nat) : List Edit → Option Text
  | [] => text.slice? previous text.size
  | e :: es => do
    let kept ← text.slice? previous e.span.start
    let rest ← spliced text e.span.stop es
    return kept ++ e.text ++ rest

/-- Edits that can be made in a text. -/
structure Fit (text : Text) (edits : List Edit) : Prop where
  /-- Each one starts where the one before it stops, or later. -/
  ordered : edits.IsChain fun e f => e.span.stop ≤ f.span.start
  /-- Each one stops within the text, and starts and stops between characters. -/
  inside : ∀ e ∈ edits, e.span.stop ≤ text.size ∧ text.Boundary e.span.start ∧
    text.Boundary e.span.stop

/-- An edit that can be made in the text as it is by now. -/
structure Progress.Takes (p : Progress) (e : Edit) : Prop where
  nonneg : 0 ≤ p.locate e.span.start
  ordered : p.locate e.span.start ≤ p.locate e.span.stop
  inside : p.locate e.span.stop ≤ p.text.size
  start_boundary : p.text.Boundary (p.locate e.span.start).toNat
  stop_boundary : p.text.Boundary (p.locate e.span.stop).toNat

/-! ## checking -/

theorem fault?_cons_eq_none {text : Text} {previous : Nat} {e : Edit} {es : List Edit} :
    fault? text previous (e :: es) = none ↔ previous ≤ e.span.start ∧
      text.isBoundary e.span.start = true ∧ text.isBoundary e.span.stop = true ∧
      fault? text e.span.stop es = none := by
  rw [fault?]
  by_cases hlt : e.span.start < previous
  · simp only [hlt, if_true, reduceCtorEq, false_iff]
    omega
  · have hle : previous ≤ e.span.start := by omega
    cases hstart : text.isBoundary e.span.start <;>
      cases hstop : text.isBoundary e.span.stop <;> simp [hlt, hle]

/-- The check lets through edits that fit and start after the one before. -/
theorem fault?_eq_none_iff {text : Text} {previous : Nat} {edits : List Edit} :
    fault? text previous edits = none ↔
      (∀ e ∈ edits.head?, previous ≤ e.span.start) ∧ Fit text edits := by
  induction edits generalizing previous with
  | nil => exact ⟨fun _ => ⟨by simp, ⟨by simp, by simp⟩⟩, fun _ => rfl⟩
  | cons e es ih =>
      rw [fault?_cons_eq_none, ih]
      constructor
      · rintro ⟨hle, hstart, hstop, hhead, hfit⟩
        refine ⟨by simpa using hle, ⟨?_, ?_⟩⟩
        · cases es with
          | nil => simp
          | cons f fs => exact .cons_cons (hhead f rfl) hfit.ordered
        · intro f hf
          rcases List.mem_cons.mp hf with rfl | hf
          · exact ⟨Text.le_size_of_isBoundary hstop, Text.isBoundary_iff.mp hstart,
              Text.isBoundary_iff.mp hstop⟩
          · exact hfit.inside f hf
      · rintro ⟨hhead, hfit⟩
        obtain ⟨-, hstart, hstop⟩ := hfit.inside e List.mem_cons_self
        refine ⟨hhead e rfl, Text.isBoundary_iff.mpr hstart, Text.isBoundary_iff.mpr hstop,
          ?_, ⟨?_, fun f hf => hfit.inside f (List.mem_cons_of_mem e hf)⟩⟩
        · intro f hf
          cases es with
          | nil => simp at hf
          | cons g gs =>
              have hg : g = f := by simpa using hf
              subst hg
              exact (List.isChain_cons_cons.mp hfit.ordered).1
        · cases es with
          | nil => simp
          | cons g gs => exact (List.isChain_cons_cons.mp hfit.ordered).2

/-! ## the loop -/

/-- Bytes between two parts of a text are replaced. -/
theorem replace_append (front middle back new : Text) :
    replace (front ++ (middle ++ back)) front.size (front.size + middle.size) new =
      front ++ new ++ back := by
  have hback : Text.dropBytes? (front.size + middle.size) (front ++ (middle ++ back)) =
      some back := by
    rw [← Text.size_append, ← List.append_assoc, Text.dropBytes?_append]
  rw [replace, Text.splitBytes?_append, hback]

/-- What holds after some edits, the last of which stops at `previous`: they
have written `done`, and what comes after `previous` in the text as it was comes
after it now. -/
def Reached (text : Text) (previous : Nat) (done : Text) (p : Progress) : Prop :=
  ∃ front rest, text = front ++ rest ∧ front.size = previous ∧ p.text = done ++ rest ∧
    p.locate previous = done.size

theorem reached_initial (text : Text) : Reached text 0 [] ⟨0, text⟩ :=
  ⟨[], text, rfl, rfl, rfl, rfl⟩

/-- One more edit can be made, and leaves what it should. -/
theorem Reached.make {text done : Text} {previous : Nat} {p : Progress} {e : Edit}
    (h : Reached text previous done p) (hspan : e.span.start ≤ e.span.stop)
    (hprev : previous ≤ e.span.start) (hstart : text.isBoundary e.span.start = true)
    (hstop : text.isBoundary e.span.stop = true) :
    p.Takes e ∧ ∃ kept, text.slice? previous e.span.start = some kept ∧
      Reached text e.span.stop (done ++ kept ++ e.text) (p.make e) := by
  obtain ⟨front, rest, rfl, rfl, hp, hmoved⟩ := h
  obtain ⟨upto, old, rest', hcut, hupto, hold⟩ :=
    Text.exists_parts_of_isBoundary hspan hstart hstop
  -- the front reaches no further than the edit, so what lies between is kept
  obtain ⟨kept, rfl⟩ : ∃ kept, upto = front ++ kept := by
    rcases List.append_eq_append_iff.mp hcut with ⟨kept, hk, -⟩ | ⟨extra, he, -⟩
    · exact ⟨kept, hk⟩
    · have hextra : extra = [] := by
        rw [he, Text.size_append] at hprev
        exact Text.size_eq_zero_iff.mp (by omega)
      subst hextra
      exact ⟨[], by simpa using he.symm⟩
  have hrest : rest = kept ++ (old ++ rest') := by
    rw [List.append_assoc] at hcut
    exact List.append_cancel_left hcut
  subst hrest
  rw [Text.size_append] at hupto hold
  simp only [Progress.locate] at hmoved
  have hlocStart : p.locate e.span.start = ((done ++ kept).size : Nat) := by
    simp only [Progress.locate, Text.size_append]
    omega
  have hlocStop : p.locate e.span.stop = ((done ++ kept).size + old.size : Nat) := by
    simp only [Progress.locate, Text.size_append]
    omega
  have hnow : p.text = (done ++ kept) ++ (old ++ rest') := by rw [hp, List.append_assoc]
  refine ⟨⟨?_, ?_, ?_, ?_, ?_⟩, kept, ?_, ?_⟩
  · rw [hlocStart]; exact Int.natCast_nonneg _
  · rw [hlocStart, hlocStop]; omega
  · rw [hlocStop, hnow]; simp only [Text.size_append]; omega
  · rw [hlocStart, Int.toNat_natCast]
    exact ⟨done ++ kept, old ++ rest', hnow, rfl⟩
  · rw [hlocStop, Int.toNat_natCast]
    exact ⟨(done ++ kept) ++ old, rest', by rw [hnow, List.append_assoc _ old],
      Text.size_append _ _⟩
  · rw [← hupto]
    exact Text.slice?_append front kept (old ++ rest')
  · refine ⟨front ++ kept ++ old, rest', by simp, by simp only [Text.size_append]; omega, ?_, ?_⟩
    · rw [Progress.make, hlocStart, hlocStop, Int.toNat_natCast, Int.toNat_natCast, hnow,
        replace_append]
    · simp only [Progress.make, Progress.locate, shift, Text.size_append]
      omega

/-- Edits that pass the check can all be made, and leave what they ask for. -/
theorem foldl_make_of_fault?_eq_none {text done : Text} {previous : Nat} {p : Progress}
    {edits : List Edit} (h : Reached text previous done p)
    (hspans : ∀ e ∈ edits, e.span.start ≤ e.span.stop)
    (hcheck : fault? text previous edits = none) :
    (∃ rest, spliced text previous edits = some rest ∧
      (edits.foldl Progress.make p).text = done ++ rest) ∧
    ∀ before e after, edits = before ++ e :: after → (before.foldl Progress.make p).Takes e := by
  induction edits generalizing previous done p with
  | nil =>
      obtain ⟨front, rest, rfl, rfl, hp, -⟩ := h
      refine ⟨⟨rest, ?_, by simpa using hp⟩, by simp⟩
      have hslice := Text.slice?_append front rest []
      rw [List.append_nil, ← Text.size_append] at hslice
      rw [spliced, hslice]
  | cons e es ih =>
      obtain ⟨hprev, hstart, hstop, hrest⟩ := fault?_cons_eq_none.mp hcheck
      obtain ⟨htakes, kept, hkept, hreached⟩ :=
        h.make (hspans e List.mem_cons_self) hprev hstart hstop
      obtain ⟨⟨out, hout, htext⟩, hlater⟩ :=
        ih hreached (fun f hf => hspans f (List.mem_cons_of_mem e hf)) hrest
      refine ⟨⟨kept ++ e.text ++ out, by simp [spliced, hkept, hout], ?_⟩, ?_⟩
      · rw [List.foldl_cons, htext]
        simp
      · intro before f after hsplit
        cases before with
        | nil =>
            have hef : e = f := (List.cons.inj hsplit).1
            rw [← hef]
            exact htakes
        | cons g gs =>
            obtain ⟨hg, htail⟩ := List.cons.inj hsplit
            rw [← hg, List.foldl_cons]
            exact hlater gs f after htail

/-! ## the whole -/

/-- Edits are made exactly if they fit.  Then the buffer holds what the edits
ask for, and on the way no edit was made outside the buffer or inside a
character; otherwise the buffer is left as it was. -/
theorem splice_eq_spliced_iff_fit (buffer : Text) (edits : List Edit)
    (hspans : ∀ e ∈ edits, e.span.start ≤ e.span.stop) :
    ((splice buffer edits).2 = none ↔ Fit buffer edits) ∧
    (Fit buffer edits → some (splice buffer edits).1 = spliced buffer 0 edits ∧
      ∀ before e after, edits = before ++ e :: after →
        (before.foldl Progress.make ⟨0, buffer⟩).Takes e) ∧
    (¬Fit buffer edits → (splice buffer edits).1 = buffer) := by
  have hcheck : fault? buffer 0 edits = none ↔ Fit buffer edits := by
    rw [fault?_eq_none_iff]
    simp
  cases hfault : fault? buffer 0 edits with
  | some cause =>
      have hnot : ¬Fit buffer edits := fun hfit => by simp [hcheck.mpr hfit] at hfault
      simp [splice, hfault, hnot]
  | none =>
      have hfit : Fit buffer edits := hcheck.mp hfault
      obtain ⟨⟨out, hout, htext⟩, htakes⟩ :=
        foldl_make_of_fault?_eq_none (reached_initial buffer) hspans hfault
      refine ⟨by simp [splice, hfault, hfit], fun _ => ⟨?_, htakes⟩, fun hnot => (hnot hfit).elim⟩
      rw [hout, splice, hfault]
      simpa [applyAll] using htext

/-- A growing, a shrinking and an empty edit around a character of two bytes. -/
theorem splice_grow_shrink_insert :
    let buffer := "aé b".toList
    let edits : List Edit :=
      [⟨⟨0, 1⟩, "xyz".toList⟩, ⟨⟨1, 3⟩, []⟩, ⟨⟨4, 4⟩, "ü".toList⟩]
    Fit buffer edits ∧ spliced buffer 0 edits = some "xyz üb".toList := by
  intro buffer edits
  have h := splice_eq_spliced_iff_fit buffer edits (by decide)
  have hfit : Fit buffer edits := h.1.mp (by decide)
  refine ⟨hfit, ?_⟩
  rw [← (h.2.1 hfit).1]
  decide

end Edit

end FreeNames
