import FreeNames.Rename
import Mathlib.Data.List.Sort

/-!
# FreeNames.Proofs.Sorting

Sorting by insertion rearranges a list and puts it in order.  Names are ordered
totally, so that sorting them depends on nothing but which there are.  Edits that
are sorted and of which repeated ones are dropped go up strictly, and are still
the same edits.
-/

namespace FreeNames.Sort

variable {α : Type} (le : α → α → Bool)

theorem insert_eq_orderedInsert (a : α) (as : List α) :
    insert le a as = as.orderedInsert (fun a b => le a b = true) a := by
  induction as with
  | nil => rfl
  | cons b bs ih => simp only [insert, List.orderedInsert, ih]

theorem sort_eq_insertionSort (as : List α) :
    sort le as = as.insertionSort fun a b => le a b = true := by
  induction as with
  | nil => rfl
  | cons a as ih => rw [sort, ih, insert_eq_orderedInsert, List.insertionSort_cons]

theorem perm_sort (as : List α) : (sort le as).Perm as := by
  rw [sort_eq_insertionSort]
  exact List.perm_insertionSort _ as

@[simp] theorem mem_sort {a : α} {as : List α} : a ∈ sort le as ↔ a ∈ as :=
  (perm_sort le as).mem_iff

theorem pairwise_sort (total : ∀ a b, le a b = true ∨ le b a = true)
    (trans : ∀ a b c, le a b = true → le b c = true → le a c = true) (as : List α) :
    (sort le as).Pairwise fun a b => le a b = true := by
  have : Std.Total fun a b => le a b = true := ⟨total⟩
  have : IsTrans α fun a b => le a b = true := ⟨trans⟩
  rw [sort_eq_insertionSort]
  exact List.pairwise_insertionSort _ as

theorem insert_map {β : Type} (f : β → α) (b : β) (bs : List β) :
    insert le (f b) (bs.map f) = (insert (fun b c => le (f b) (f c)) b bs).map f := by
  induction bs with
  | nil => rfl
  | cons c cs ih =>
      rw [List.map_cons, insert, insert, ih]
      split <;> rfl

/-- Items can be sorted by something that they have, or that can be sorted. -/
theorem sort_map {β : Type} (f : β → α) (bs : List β) :
    sort le (bs.map f) = (sort (fun b c => le (f b) (f c)) bs).map f := by
  induction bs with
  | nil => rfl
  | cons b bs ih => rw [List.map_cons, sort, sort, ih, insert_map]

theorem sort_eq_self {as : List α} (h : as.Pairwise fun a b => le a b = true) :
    sort le as = as := by
  rw [sort_eq_insertionSort]
  exact h.insertionSort_eq

end FreeNames.Sort

namespace FreeNames.Text

theorem le_total (as bs : Text) : le as bs = true ∨ le bs as = true := by
  induction as generalizing bs with
  | nil => exact Or.inl rfl
  | cons a as ih =>
      cases bs with
      | nil => exact Or.inr rfl
      | cons b bs =>
          by_cases hab : a = b
          · simpa [le, hab] using ih bs
          · have hne : a.toNat ≠ b.toNat := fun heq => hab (Char.toNat_inj.mp heq)
            simp only [le, hab, Ne.symm hab, if_false, decide_eq_true_eq]
            omega

theorem le_trans (as bs cs : Text) (hab : le as bs = true) (hbc : le bs cs = true) :
    le as cs = true := by
  induction as generalizing bs cs with
  | nil => rfl
  | cons a as ih =>
      cases bs with
      | nil => simp [le] at hab
      | cons b bs =>
          cases cs with
          | nil => simp [le] at hbc
          | cons c cs =>
              by_cases h : a = b <;> by_cases h' : b = c
              · simp only [le, h, h', if_true] at hab hbc ⊢
                exact ih bs cs hab hbc
              · simpa [le, h, h'] using hbc
              · simpa [le, ← h', h] using hab
              · simp only [le, h, h', if_false, decide_eq_true_eq] at hab hbc
                have hlt : a.toNat < c.toNat := Nat.lt_trans hab hbc
                rw [le, if_neg fun heq => Nat.lt_irrefl _ (heq ▸ hlt)]
                exact decide_eq_true hlt

theorem le_antisymm (as bs : Text) (hab : le as bs = true) (hba : le bs as = true) : as = bs := by
  induction as generalizing bs with
  | nil =>
      cases bs with
      | nil => rfl
      | cons b bs => simp [le] at hba
  | cons a as ih =>
      cases bs with
      | nil => simp [le] at hab
      | cons b bs =>
          by_cases h : a = b
          · simp only [le, h, if_true] at hab hba
            rw [h, ih bs hab hba]
          · simp only [le, h, Ne.symm h, if_false, decide_eq_true_eq] at hab hba
            omega

/-- Names in another order are the same when sorted. -/
theorem sort_eq_of_perm {as bs : List Text} (h : as.Perm bs) :
    Sort.sort le as = Sort.sort le bs := by
  refine List.Perm.eq_of_pairwise (fun a b _ _ => le_antisymm a b)
    (Sort.pairwise_sort le le_total le_trans as) (Sort.pairwise_sort le le_total le_trans bs) ?_
  exact ((Sort.perm_sort le as).trans h).trans (Sort.perm_sort le bs).symm

theorem nodup_eraseDups : (names : List Text) → names.eraseDups.Nodup
  | [] => by simp
  | a :: as => by
      rw [List.eraseDups_cons, List.nodup_cons]
      have hlt : (as.filter fun b => !b == a).length < as.length + 1 :=
        Nat.lt_succ_of_le (List.length_filter_le _ _)
      exact ⟨by simp [List.mem_eraseDups], nodup_eraseDups (as.filter fun b => !b == a)⟩
termination_by names => names.length

end FreeNames.Text

namespace FreeNames.Rule

theorem mem_of_mem_dropRepeated {edits : List Edit} {e : Edit} (h : e ∈ dropRepeated edits) :
    e ∈ edits := by
  induction edits generalizing e with
  | nil => exact h
  | cons f fs ih =>
      rw [dropRepeated, List.mem_cons] at h
      rcases h with rfl | h
      · exact List.mem_cons_self
      · refine List.mem_cons_of_mem f (ih ?_)
        split at h
        · simp at h
        · next g gs hg =>
            rw [hg]
            split at h
            · exact List.mem_cons_of_mem g h
            · exact h

/-- Where edits that start together are the same edit, dropping repeated ones
leaves edits that go up strictly, and all that there were. -/
theorem dropRepeated_strict {edits : List Edit}
    (hsorted : edits.Pairwise fun a b => a.span.start ≤ b.span.start)
    (hsame : ∀ a ∈ edits, ∀ b ∈ edits, a.span.start = b.span.start → a = b) :
    ((dropRepeated edits).Pairwise fun a b => a.span.start < b.span.start) ∧
      ∀ e ∈ edits, e ∈ dropRepeated edits := by
  induction edits with
  | nil => simp [dropRepeated]
  | cons f fs ih =>
      obtain ⟨hle, hsorted⟩ := List.pairwise_cons.mp hsorted
      obtain ⟨hstrict, hall⟩ := ih hsorted fun a ha b hb =>
        hsame a (List.mem_cons_of_mem f ha) b (List.mem_cons_of_mem f hb)
      rw [dropRepeated]
      cases hfs : dropRepeated fs with
      | nil =>
          have hnil : fs = [] := List.eq_nil_iff_forall_not_mem.mpr fun e he => by
            simpa [hfs] using hall e he
          simp [hnil]
      | cons g gs =>
          rw [hfs] at hstrict hall
          have hg : g ∈ fs := mem_of_mem_dropRepeated (by simp [hfs])
          have hlater : ∀ e ∈ gs, g.span.start < e.span.start := (List.pairwise_cons.mp hstrict).1
          simp only []
          split
          · -- the edit repeats the next one, which is left out
            next heq =>
              have hfg : f = g :=
                hsame f List.mem_cons_self g (List.mem_cons_of_mem f hg) (by rw [heq])
              subst hfg
              exact ⟨hstrict, fun e he => (List.mem_cons.mp he).elim (by simp +contextual) (hall e)⟩
          · next hne =>
              have hlt : f.span.start < g.span.start := by
                refine Nat.lt_of_le_of_ne (hle g hg) fun heq => hne ?_
                rw [hsame f List.mem_cons_self g (List.mem_cons_of_mem f hg) heq]
              refine ⟨List.pairwise_cons.mpr ⟨fun e he => ?_, hstrict⟩, fun e he => ?_⟩
              · rcases List.mem_cons.mp he with rfl | he
                · exact hlt
                · exact hlt.trans (hlater e he)
              · rcases List.mem_cons.mp he with rfl | he
                · exact List.mem_cons_self
                · exact List.mem_cons_of_mem f (hall e he)

end FreeNames.Rule
