import FreeNames.Grammar.Production

/-!
# FreeNames.Proofs.Drafting

What the small steps of a draft leave alone.  Placing trees, wrapping them and
logging steps do not change what is seen ahead; placing trivia changes only
whether trivia is still to be placed.
-/

namespace FreeNames

@[simp] theorem Gap.trivia_placed (g : Gap) : g.placed.trivia = [] := rfl
@[simp] theorem Gap.newline_placed (g : Gap) : g.placed.newline = g.newline := rfl

namespace Draft

variable (d e : Draft) (n : Nat) (k : NodeKind) (s : Step) (ts : List Token) (c : Cause)

/-! ## what is left to read -/

@[simp] theorem rest_place : (d.place ts).rest = d.rest := rfl
@[simp] theorem rest_log : (d.log s).rest = d.rest := rfl
@[simp] theorem rest_apart : d.apart.rest = d.rest := rfl
@[simp] theorem rest_wrap : (d.wrap k).rest = d.rest := rfl
@[simp] theorem rest_rejoin : (d.rejoin e).rest = d.rest := rfl
@[simp] theorem rest_report : (d.report c).rest = d.rest := rfl

@[simp] theorem last_place : (d.place ts).last = d.last := rfl

/-! ## trees and steps -/

@[simp] theorem trees_place :
    (d.place ts).trees = (ts.map Tree.leaf).reverse ++ d.trees := rfl
@[simp] theorem trees_log : (d.log s).trees = d.trees := rfl
@[simp] theorem trees_apart : d.apart.trees = [] := rfl
@[simp] theorem trees_wrap : (d.wrap k).trees = [.node k d.trees.reverse] := rfl
@[simp] theorem trees_rejoin : (d.rejoin e).trees = d.trees ++ e.trees := rfl
@[simp] theorem trees_report : (d.report c).trees = d.trees := rfl

@[simp] theorem base_log : (d.log s).base = d.base := rfl
@[simp] theorem base_apart : d.apart.base = d.base + d.trees.length := rfl

@[simp] theorem steps_place :
    (d.place ts).steps = (ts.map Step.token).reverse ++ d.steps := rfl
@[simp] theorem steps_log : (d.log s).steps = s :: d.steps := rfl
@[simp] theorem steps_apart : d.apart.steps = d.steps := rfl
@[simp] theorem steps_wrap : (d.wrap k).steps = d.steps := rfl
@[simp] theorem steps_rejoin : (d.rejoin e).steps = d.steps := rfl
@[simp] theorem steps_report : (d.report c).steps = d.steps := rfl

/-! ## problems -/

@[simp] theorem problems_place : (d.place ts).problems = d.problems := rfl
@[simp] theorem problems_log : (d.log s).problems = d.problems := rfl
@[simp] theorem problems_apart : d.apart.problems = d.problems := rfl
@[simp] theorem problems_wrap : (d.wrap k).problems = d.problems := rfl
@[simp] theorem problems_rejoin : (d.rejoin e).problems = d.problems := rfl
@[simp] theorem problems_report : (d.report c).problems = ⟨c, d.spanHere⟩ :: d.problems := rfl

/-! ## placing trivia -/

theorem placeTrivia_nil {d : Draft} (h : d.rest = []) :
    d.placeTrivia = { d with last := d.last.placed }.place d.last.trivia := by
  simp [placeTrivia, h]

theorem placeTrivia_cons {d : Draft} {l : Lexeme} {ls : List Lexeme} (h : d.rest = l :: ls) :
    d.placeTrivia =
      { d with rest := { l with gap := l.gap.placed } :: ls }.place l.gap.trivia := by
  simp [placeTrivia, h]

@[simp] theorem problems_placeTrivia : d.placeTrivia.problems = d.problems := by
  cases h : d.rest with
  | nil => rw [placeTrivia_nil h]; rfl
  | cons l ls => rw [placeTrivia_cons h]; rfl

@[simp] theorem length_rest_placeTrivia : d.placeTrivia.rest.length = d.rest.length := by
  cases h : d.rest with
  | nil => rw [placeTrivia_nil h]; simp [h]
  | cons l ls => rw [placeTrivia_cons h]; simp

@[simp] theorem kindAt_placeTrivia : d.placeTrivia.kindAt n = d.kindAt n := by
  cases h : d.rest with
  | nil => rw [placeTrivia_nil h]; rfl
  | cons l ls => rw [placeTrivia_cons h]; cases n <;> simp [kindAt, h]

@[simp] theorem textAt_placeTrivia : d.placeTrivia.textAt n = d.textAt n := by
  cases h : d.rest with
  | nil => rw [placeTrivia_nil h]; rfl
  | cons l ls => rw [placeTrivia_cons h]; cases n <;> simp [textAt, h]

@[simp] theorem newlineAt_placeTrivia : d.placeTrivia.newlineAt n = d.newlineAt n := by
  cases h : d.rest with
  | nil => rw [placeTrivia_nil h]; simp [newlineAt, h]
  | cons l ls => rw [placeTrivia_cons h]; cases n <;> simp [newlineAt, h]

@[simp] theorem ended_placeTrivia : d.placeTrivia.ended = d.ended := by
  cases h : d.rest with
  | nil => rw [placeTrivia_nil h]; simp [ended, h]
  | cons l ls => rw [placeTrivia_cons h]; simp [ended, h]

/-! ## looking ahead -/

@[simp] theorem kindAt_log : (d.log s).kindAt n = d.kindAt n := rfl
@[simp] theorem kindAt_apart : d.apart.kindAt n = d.kindAt n := rfl
@[simp] theorem textAt_log : (d.log s).textAt n = d.textAt n := rfl
@[simp] theorem textAt_apart : d.apart.textAt n = d.textAt n := rfl
@[simp] theorem newlineAt_log : (d.log s).newlineAt n = d.newlineAt n := rfl
@[simp] theorem newlineAt_apart : d.apart.newlineAt n = d.newlineAt n := rfl
@[simp] theorem ended_report : (d.report c).ended = d.ended := rfl

@[simp] theorem kind_placeTrivia : d.placeTrivia.kind = d.kind := kindAt_placeTrivia d 0
@[simp] theorem kind_log : (d.log s).kind = d.kind := rfl
@[simp] theorem kind_apart : d.apart.kind = d.kind := rfl

/-- A draft that sees a kind has a token of it to take. -/
theorem exists_cons_of_kind {d : Draft} {t : TokenKind} (h : d.kind = t) (ht : t ≠ .error) :
    ∃ l ls, d.rest = l :: ls ∧ l.token.kind = t := by
  cases hr : d.rest with
  | nil => simp [kind, kindAt, hr, ht.symm] at h
  | cons l ls => exact ⟨l, ls, rfl, by simpa [kind, kindAt, hr] using h⟩

theorem kind_of_sees {d : Draft} {t : TokenKind} (h : d.sees t = true) : d.kind = t := by
  simp only [sees, Bool.and_eq_true, decide_eq_true_eq] at h
  exact h.2

theorem exists_cons_of_sees {d : Draft} {t : TokenKind} (h : d.sees t = true) :
    ∃ l ls, d.rest = l :: ls ∧ l.token.kind = t := by
  cases hr : d.rest with
  | nil => simp [sees, ended, hr] at h
  | cons l ls => exact ⟨l, ls, rfl, by simpa [kind, kindAt, hr] using kind_of_sees h⟩

theorem take_cons {d : Draft} {l : Lexeme} {ls : List Lexeme} (h : d.rest = l :: ls) :
    d.take = { d with rest := ls }.place (l.gap.trivia ++ [l.token]) := by
  simp [take, h]

/-! ## what holds of all trees gathered -/

/-- Something holds of all trees gathered. -/
def Every (P : Tree → Prop) (d : Draft) : Prop := ∀ t ∈ d.trees, P t

section

variable {P : Tree → Prop} {d e : Draft} (hleaf : ∀ t, P (.leaf t))

include hleaf in
theorem Every.place (h : d.Every P) (ts : List Token) : (d.place ts).Every P := by
  intro t ht
  simp only [trees_place, List.mem_append, List.mem_reverse, List.mem_map] at ht
  rcases ht with ⟨u, -, rfl⟩ | ht
  · exact hleaf u
  · exact h t ht

include hleaf in
theorem Every.placeTrivia (h : d.Every P) : d.placeTrivia.Every P := by
  cases hr : d.rest with
  | nil =>
      rw [placeTrivia_nil hr]
      exact Every.place hleaf h _
  | cons l ls =>
      rw [placeTrivia_cons hr]
      exact Every.place hleaf h _

include hleaf in
theorem Every.take (h : d.Every P) : d.take.Every P := by
  cases hr : d.rest with
  | nil =>
      rw [Draft.take, hr]
      exact Every.placeTrivia hleaf h
  | cons l ls =>
      rw [take_cons hr]
      exact Every.place hleaf h _

theorem Every.rejoin (h : e.Every P) (hd : d.Every P) : (e.rejoin d).Every P := by
  intro t ht
  rcases List.mem_append.mp ht with ht | ht
  · exact h t ht
  · exact hd t ht

theorem Every.wrap {k : NodeKind} (h : d.Every P)
    (hnode : ∀ {parts : List Tree}, (∀ p ∈ parts, P p) → P (.node k parts)) :
    (d.wrap k).Every P := by
  intro t ht
  rw [trees_wrap, List.mem_singleton] at ht
  rw [ht]
  exact hnode fun p hp => h p (List.mem_reverse.mp hp)

theorem every_apart (d : Draft) : d.apart.Every P := by simp [Every]

theorem every_started (d : Draft) (s : Step) : (d.apart.log s).Every P := d.every_apart

include hleaf in
theorem Every.single {k : NodeKind} (h : d.Every P)
    (hnode : ∀ {parts : List Tree}, (∀ p ∈ parts, P p) → P (.node k parts)) :
    (d.single k).Every P :=
  (((every_started d.placeTrivia (.start k)).take hleaf).wrap hnode).rejoin (h.placeTrivia hleaf)

end

end Draft

end FreeNames
