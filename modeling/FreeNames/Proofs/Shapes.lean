import FreeNames.Proofs.Reading

/-!
# FreeNames.Proofs.Shapes

What member accesses, parentheses and meta properties are made of in a text without
problems, leaving trivia aside: `NodeKind.shapes`.  No other node has a dot for a part.

The object of an access by a dot is an operand with its suffixes.  If it ends with a
name or `this`, it is that: `new a` has no dot after it, since the dot would belong to
`a`.  So a reading keeps track of what the last tree is if a dot comes next (`Edge`).

Main statement: `shaped_root`.
-/

namespace FreeNames

/-! ## trees that end with a reference -/

/-- Nodes that may refer to a global. -/
def NodeKind.refers : NodeKind → Bool
  | .nameRef | .thisExpr => true
  | _ => false

namespace Tree

/-- The last token of a tree, trivia aside, is directly inside a node that may refer. -/
inductive EndsInReference : Tree → Prop
  | here {k : NodeKind} {parts : List Tree} {t : Token} (kind : k.refers = true)
    (last : (solids parts).getLast? = some (.leaf t)) : EndsInReference (.node k parts)
  | inner {k : NodeKind} {parts : List Tree} {t : Tree} (last : (solids parts).getLast? = some t)
    (ends : EndsInReference t) : EndsInReference (.node k parts)

/-- A tree ends with a reference only if it is one. -/
def Simple (t : Tree) : Prop :=
  (∃ k parts, t = .node k parts ∧ k.refers = true) ∨ ¬t.EndsInReference

/-- A node does not end with a reference if its last part does not. -/
theorem not_endsInReference_node {k : NodeKind} {parts : List Tree} (hk : k.refers = false)
    (hlast : ∀ t ∈ (solids parts).getLast?, ¬t.EndsInReference) :
    ¬(node k parts).EndsInReference := by
  intro h
  cases h with
  | here kind _ => simp [hk] at kind
  | inner last ends => exact hlast _ last ends

end Tree

/-! ## shapes -/

/-- Parts of nodes with a shape of their own. -/
inductive Item where
  /-- An expression; it may be known to be simple. -/
  | expression (simple : Bool)
  | propertyName
  | dot
  /-- A token, but not a dot. -/
  | mark
deriving DecidableEq

namespace Item

/-- A tree is an item. -/
def Fits : Item → Tree → Prop
  | expression simple, t =>
    (∃ k parts, t = .node k parts ∧ k.isExpression = true) ∧ (simple = true → t.Simple)
  | propertyName, t => ∃ parts, t = .node .propertyName parts
  | dot, t => ∃ u, t = .leaf u ∧ u.kind = .punct .dot
  | mark, t => ∃ u, t = .leaf u ∧ u.kind ≠ .punct .dot

/-- One item says at least as much as another. -/
def le (i j : Item) : Bool := i = j || i = .expression true && j = .expression false

/-- One row of items says at least as much as another. -/
def leAll : List Item → List Item → Bool
  | [], [] => true
  | i :: is, j :: js => i.le j && leAll is js
  | _, _ => false

/-- The item that a node is. -/
def ofKind? (k : NodeKind) : Option Item :=
  if k.isExpression then some (.expression false)
  else if k = .propertyName then some .propertyName
  else none

variable {i j : Item} {is js : List Item} {ts : List Tree}

theorem Fits.mono {t : Tree} (h : i.Fits t) (hle : i.le j = true) : j.Fits t := by
  simp only [le, Bool.or_eq_true, Bool.and_eq_true, decide_eq_true_eq] at hle
  rcases hle with rfl | ⟨rfl, rfl⟩
  · exact h
  · exact ⟨h.1, nofun⟩

theorem fitsAll_mono (h : List.Forall₂ Fits is ts) (hle : leAll is js = true) :
    List.Forall₂ Fits js ts := by
  induction h generalizing js with
  | nil =>
      cases js with
      | nil => exact .nil
      | cons _ _ => cases hle
  | cons hi _ ih =>
      cases js with
      | nil => cases hle
      | cons j js =>
          obtain ⟨hij, hrest⟩ := (Bool.and_eq_true ..).mp hle
          exact .cons (hi.mono hij) (ih hrest)

theorem fits_ofKind? {k : NodeKind} (h : ofKind? k = some i) (parts : List Tree) :
    i.Fits (.node k parts) := by
  unfold ofKind? at h
  split at h
  · next hk =>
      obtain rfl := Option.some.inj h
      exact ⟨⟨k, parts, rfl, hk⟩, nofun⟩
  · split at h
    · next hk =>
        obtain rfl := Option.some.inj h
        exact ⟨parts, by rw [hk]⟩
    · cases h

end Item

/-- What a node of a kind can be made of, if this is laid down. -/
def NodeKind.shapes : NodeKind → Option (List (List Item))
  | .memberExpr =>
    some [[.expression true, .dot, .propertyName], [.expression false, .mark, .propertyName]]
  | .parenExpr => some [[.mark, .expression false, .mark]]
  | .metaProperty => some [[.mark, .dot, .propertyName]]
  | _ => none

/-- A node is made of what it can be made of, or has no dot for a part. -/
def Tree.Shaped (k : NodeKind) (parts : List Tree) : Prop :=
  match k.shapes with
  | some shapes => ∃ is ∈ shapes, List.Forall₂ Item.Fits is (solids parts)
  | none => ∀ t, .leaf t ∈ parts → t.kind ≠ .punct .dot

namespace Tree.Shaped

variable {parts : List Tree}

/-- A member access is an object, a mark and a property; an object before a dot is simple. -/
theorem member (h : Shaped .memberExpr parts) :
    ∃ k object t name, solids parts = [.node k object, .leaf t, .node .propertyName name] ∧
      k.isExpression = true ∧ (t.kind = .punct .dot → (node k object).Simple) := by
  obtain ⟨is, his, hfits⟩ := h
  rcases List.mem_pair.mp his with rfl | rfl
  all_goals
    simp only [List.forall₂_cons_left_iff, List.forall₂_nil_left_iff] at hfits
    obtain ⟨_, _, ⟨⟨k, object, rfl, hk⟩, hsimple⟩, ⟨_, _, ⟨t, rfl, ht⟩,
      ⟨_, _, ⟨name, rfl⟩, rfl, rfl⟩, rfl⟩, hparts⟩ := hfits
  · exact ⟨k, object, t, name, hparts, hk, fun _ => hsimple rfl⟩
  · exact ⟨k, object, t, name, hparts, hk, fun hdot => absurd hdot ht⟩

/-- Parentheses are around one expression. -/
theorem paren (h : Shaped .parenExpr parts) :
    ∃ l k inner r, solids parts = [.leaf l, .node k inner, .leaf r] ∧ l.kind ≠ .punct .dot ∧
      r.kind ≠ .punct .dot := by
  obtain ⟨is, his, hfits⟩ := h
  obtain rfl := List.mem_singleton.mp his
  simp only [List.forall₂_cons_left_iff, List.forall₂_nil_left_iff] at hfits
  obtain ⟨_, _, ⟨l, rfl, hl⟩, ⟨_, _, ⟨⟨k, inner, rfl, -⟩, -⟩, ⟨_, _, ⟨r, rfl, hr⟩, rfl, rfl⟩, rfl⟩,
    hparts⟩ := hfits
  exact ⟨l, k, inner, r, hparts, hl, hr⟩

/-- A meta property is a word, a dot and a property. -/
theorem metaProperty (h : Shaped .metaProperty parts) :
    ∃ word dot name, solids parts = [.leaf word, .leaf dot, .node .propertyName name] ∧
      word.kind ≠ .punct .dot := by
  obtain ⟨is, his, hfits⟩ := h
  obtain rfl := List.mem_singleton.mp his
  simp only [List.forall₂_cons_left_iff, List.forall₂_nil_left_iff] at hfits
  obtain ⟨_, _, ⟨word, rfl, hword⟩, ⟨_, _, ⟨dot, rfl, -⟩, ⟨_, _, ⟨name, rfl⟩, rfl, rfl⟩, rfl⟩,
    hparts⟩ := hfits
  exact ⟨word, dot, name, hparts, hword⟩

/-- Where an element of three in a row stands. -/
theorem append_cons_eq_triple {α : Type} {xs ys : List α} {y a b c : α}
    (h : xs ++ y :: ys = [a, b, c]) :
    (xs = [] ∧ y = a ∧ ys = [b, c]) ∨ (xs = [a] ∧ y = b ∧ ys = [c]) ∨
      (xs = [a, b] ∧ y = c ∧ ys = []) := by
  rcases xs with _ | ⟨x, _ | ⟨x', _ | ⟨x'', xs⟩⟩⟩ <;> simp_all

/-- A dot is between the object and the property of a member access, or after the word of a meta
property. -/
theorem of_dot {k : NodeKind} {before after : List Tree} {t : Token}
    (h : Shaped k (before ++ .leaf t :: after)) (ht : t.kind = .punct .dot) :
    (k = .memberExpr ∧ ∃ j object name, solids before = [.node j object] ∧
        (node j object).Simple ∧ solids after = [.node .propertyName name]) ∨
      (k = .metaProperty ∧ ∃ word, solids before = [.leaf word]) := by
  have hsolids : solids (before ++ .leaf t :: after) =
      solids before ++ .leaf t :: solids after := by
    rw [solids_append, solids_leaf (by simp [Token.isTrivia, TokenKind.isTrivia, ht])]
  cases hshapes : k.shapes with
  | none =>
      rw [Shaped, hshapes] at h
      exact absurd ht (h t (by simp))
  | some shapes =>
      unfold NodeKind.shapes at hshapes
      split at hshapes
      · obtain ⟨j, object, u, name, hparts, -, hsimple⟩ := h.member
        rw [hsolids] at hparts
        rcases append_cons_eq_triple hparts with ⟨-, hu, -⟩ | ⟨hbefore, hu, hafter⟩ | ⟨-, hu, -⟩
        · cases hu
        · obtain rfl := Tree.leaf.inj hu
          exact Or.inl ⟨rfl, j, object, name, hbefore, hsimple ht, hafter⟩
        · cases hu
      · obtain ⟨l, j, inner, r, hparts, hl, hr⟩ := h.paren
        rw [hsolids] at hparts
        rcases append_cons_eq_triple hparts with ⟨-, hu, -⟩ | ⟨-, hu, -⟩ | ⟨-, hu, -⟩
        · exact absurd (Tree.leaf.inj hu ▸ ht) hl
        · cases hu
        · exact absurd (Tree.leaf.inj hu ▸ ht) hr
      · obtain ⟨word, dot, name, hparts, hword⟩ := h.metaProperty
        rw [hsolids] at hparts
        rcases append_cons_eq_triple hparts with ⟨-, hu, -⟩ | ⟨hbefore, -, -⟩ | ⟨-, hu, -⟩
        · exact absurd (Tree.leaf.inj hu ▸ ht) hword
        · exact Or.inr ⟨rfl, word, hbefore⟩
        · cases hu
      · cases hshapes

end Tree.Shaped

/-! ## what is known about the trees -/

namespace Shape

/-- What the last tree is if a dot comes next. -/
inductive Edge where
  /-- One that does not end with a reference. -/
  | shut
  | simple
  | any
deriving DecidableEq

namespace Edge

def join (e f : Edge) : Edge :=
  if e = f then e else if e = .any || f = .any then .any else .simple

/-- One of two things says at least as much as the other. -/
def le (e f : Edge) : Bool := f = .any || e = f || e = .shut

/-- What is known of a node when something is known of its last part. -/
def close (k : NodeKind) (e : Edge) : Edge :=
  if k.refers then .simple else if e = .shut then .shut else .any

/-- What is known is true of the last tree. -/
def Fits (last : Option Tree) : Edge → Prop
  | shut => ∃ t ∈ last, ¬t.EndsInReference
  | simple => ∃ t ∈ last, t.Simple
  | any => True

variable {e f : Edge} {last : Option Tree}

theorem Fits.mono (h : e.Fits last) (hle : e.le f = true) : f.Fits last := by
  simp only [le, Bool.or_eq_true, decide_eq_true_eq] at hle
  rcases hle with (rfl | rfl) | rfl
  · trivial
  · exact h
  · obtain ⟨t, ht, hshut⟩ := h
    cases f with
    | shut => exact ⟨t, ht, hshut⟩
    | simple => exact ⟨t, ht, Or.inr hshut⟩
    | any => trivial

theorem le_join_left (e f : Edge) : e.le (e.join f) = true := by
  cases e <;> cases f <;> rfl

theorem le_join_right (e f : Edge) : f.le (e.join f) = true := by
  cases e <;> cases f <;> rfl

/-- A node whose last part is known. -/
theorem Fits.close {k : NodeKind} {parts : List Tree} (h : e.Fits (Tree.solids parts).getLast?) :
    (e.close k).Fits (some (.node k parts)) := by
  unfold Edge.close
  split
  · next hk => exact ⟨_, rfl, Or.inl ⟨k, parts, rfl, hk⟩⟩
  · next hk =>
      split
      · next he =>
          subst he
          obtain ⟨t, ht, hshut⟩ := h
          refine ⟨_, rfl, Tree.not_endsInReference_node (by simpa using hk) fun u hu => ?_⟩
          obtain rfl := Option.some.inj (ht.symm.trans hu)
          exact hshut
      · trivial

end Edge

end Shape

/-- What is known about the trees of the open group or node. -/
structure Shape where
  /-- There were none before. -/
  bare : Bool
  /-- The trees that have been added, latest first and without trivia, if they are known. -/
  row : Option (List Item)
  edge : Shape.Edge
  /-- No dot has been added. -/
  plain : Bool
  /-- All nodes have their shapes. -/
  sound : Bool
deriving DecidableEq

namespace Shape

/-- Nothing is known. -/
def lost : Shape := ⟨false, none, .any, false, false⟩

def joinRows (r s : List Item) : Option (List Item) :=
  if Item.leAll r s then some s else if Item.leAll s r then some r else none

def join (g h : Shape) : Shape where
  bare := g.bare && h.bare
  row := do joinRows (← g.row) (← h.row)
  edge := g.edge.join h.edge
  plain := g.plain && h.plain
  sound := g.sound && h.sound

/-- One of two things says at least as much as the other. -/
def le (g h : Shape) : Bool :=
  (!h.bare || g.bare) && (h.row.all fun s => g.row.any fun r => Item.leAll r s) &&
    g.edge.le h.edge && (!h.plain || g.plain) && (!h.sound || g.sound)

/-- The last item of a row is simple. -/
def simplify : List Item → List Item
  | .expression _ :: is => .expression true :: is
  | is => is

/-- The item that the next token is. -/
def nextItem? (σ : Sight) : Option Item :=
  if !σ.left then none
  else if σ.rulesOut fun k => k ≠ .punct .dot then some .dot
  else if σ.rulesOut fun k => k = .punct .dot then some .mark
  else none

/-- The next token is taken; if it is a dot, the last tree is what was known for that. -/
def take (σ : Sight) (g : Shape) : Shape where
  bare := g.bare
  row :=
    match nextItem? σ, g.row with
    | some .dot, some is => some (.dot :: if g.edge = .any then is else simplify is)
    | some i, some is => some (i :: is)
    | _, _ => none
  edge := if σ.left then .shut else .any
  plain := g.plain && σ.rulesOut fun k => k = .punct .dot
  sound := g.sound

/-- Trees of which something is known can be the parts of a node. -/
def makes (g : Shape) (k : NodeKind) : Bool :=
  match k.shapes with
  | some shapes => g.row.any fun r => shapes.any (Item.leAll r.reverse)
  | none => g.plain

/-- What has to be known when a production is called. -/
def needs : Production → Shape
  | .suffixes _ => ⟨true, some [.expression false], .simple, true, true⟩
  | .binaryTail _ => ⟨true, some [.expression false], .any, true, true⟩
  | _ => ⟨false, some [], .any, true, true⟩

/-- What is known then when it is done. -/
def gives : Production → Shape
  | .expression | .assignment | .conditional | .binary _ | .unary =>
    ⟨false, some [.expression false], .any, true, true⟩
  | .operand | .newExpr => ⟨false, some [.expression false], .shut, true, true⟩
  | .suffixes _ => ⟨true, some [.expression false], .shut, true, true⟩
  | .binaryTail _ => ⟨true, some [.expression false], .any, true, true⟩
  | .block | .templateParts => ⟨false, none, .shut, true, true⟩
  | _ => ⟨false, none, .any, true, true⟩

/-- A production has been called.  One that does not go on after an operand adds to the
trees before, whatever they are. -/
def called (p : Production) (g : Shape) : Shape :=
  if p.continues then (if g.le (needs p) then gives p else lost)
  else if g.sound then
    ⟨g.bare, do return (← (gives p).row) ++ (← g.row), (gives p).edge, g.plain, true⟩
  else lost

end Shape

/-- Following the shapes of nodes. -/
def shapeReading : Reading Shape where
  join := Shape.join
  le := Shape.le
  seen σ g := if σ.rulesOut fun k => k = .punct .dot then { g with edge := .shut } else g
  take := Shape.take
  opened := ⟨true, some [], .any, true, true⟩
  group g h :=
    ⟨g.bare, do return (← h.row) ++ (← g.row), h.edge, g.plain && h.plain, g.sound && h.sound⟩
  enclose k g h :=
    ⟨g.bare, if g.bare then (Item.ofKind? k).map ([·]) else none, h.edge.close k, true,
      g.bare && h.makes k && h.sound⟩
  node k g h :=
    ⟨g.bare, do return (← Item.ofKind? k) :: (← g.row), h.edge.close k, g.plain,
      g.sound && (h.makes k && h.sound)⟩
  needs := Shape.needs
  gives := Shape.gives
  called := Shape.called
  widen g := { g with row := none, edge := .any }
  lost := Shape.lost

/-! ## what is known is true -/

namespace Shape

/-- What is known is true of a draft, whose open group or node had the trees of `base`
before. -/
structure Fits (base : List Tree) (g : Shape) (d : Draft) : Prop where
  bare : g.bare = true → base = []
  row (is : List Item) : g.row = some is →
    ∃ ts, d.row = ts ++ base ∧ List.Forall₂ Item.Fits is ts
  edge : d.kind = .punct .dot → g.edge.Fits d.row.head?
  plain : g.plain = true → ∀ t, .leaf t ∈ d.row → t.kind = .punct .dot → .leaf t ∈ base
  sound : g.sound = true → d.Every (Tree.All Tree.Shaped)

variable {base : List Tree} {g h : Shape} {d e : Draft} {σ : Sight} {start : Draft}

theorem fits_lost (base : List Tree) (d : Draft) : lost.Fits base d :=
  ⟨nofun, nofun, fun _ => trivial, nofun, nofun⟩

theorem Fits.mono (hg : g.Fits base d) (hle : g.le h = true) : h.Fits base d := by
  simp only [le, Bool.and_eq_true, Bool.or_eq_true, Bool.not_eq_true'] at hle
  obtain ⟨⟨⟨⟨hbare, hrow⟩, hedge⟩, hplain⟩, hsound⟩ := hle
  refine ⟨fun hh => hg.bare (hbare.resolve_left (by simp [hh])), fun is his => ?_,
    fun hk => (hg.edge hk).mono hedge, fun hh => hg.plain (hplain.resolve_left (by simp [hh])),
    fun hh => hg.sound (hsound.resolve_left (by simp [hh]))⟩
  rw [his, Option.all_some] at hrow
  cases hr : g.row with
  | none => simp [hr] at hrow
  | some r =>
      obtain ⟨ts, hts, hfits⟩ := hg.row r hr
      rw [hr, Option.any_some] at hrow
      exact ⟨ts, hts, Item.fitsAll_mono hfits hrow⟩

theorem exists_of_joinRows {r s is : List Item} (h : joinRows r s = some is) {ts : List Tree}
    (hts : List.Forall₂ Item.Fits r ts ∨ List.Forall₂ Item.Fits s ts) :
    List.Forall₂ Item.Fits is ts := by
  unfold joinRows at h
  split at h
  · next hle =>
      obtain rfl := Option.some.inj h
      exact hts.elim (Item.fitsAll_mono · hle) id
  · split at h
    · next hle =>
        obtain rfl := Option.some.inj h
        exact hts.elim id (Item.fitsAll_mono · hle)
    · cases h

theorem fits_join (hgh : g.Fits base d ∨ h.Fits base d) : (g.join h).Fits base d where
  bare hb := by
    obtain ⟨hg, hh⟩ := (Bool.and_eq_true ..).mp hb
    exact hgh.elim (fun f => f.bare hg) fun f => f.bare hh
  row is his := by
    simp only [join, Option.bind_eq_bind, Option.bind_eq_some_iff] at his
    obtain ⟨r, hr, s, hs, his⟩ := his
    rcases hgh with hg | hh
    · obtain ⟨ts, hts, hfits⟩ := hg.row r hr
      exact ⟨ts, hts, exists_of_joinRows his (Or.inl hfits)⟩
    · obtain ⟨ts, hts, hfits⟩ := hh.row s hs
      exact ⟨ts, hts, exists_of_joinRows his (Or.inr hfits)⟩
  edge hk := hgh.elim (fun f => (f.edge hk).mono (Edge.le_join_left ..))
    fun f => (f.edge hk).mono (Edge.le_join_right ..)
  plain hp := by
    obtain ⟨hg, hh⟩ := (Bool.and_eq_true ..).mp hp
    exact hgh.elim (fun f => f.plain hg) fun f => f.plain hh
  sound hs := by
    obtain ⟨hg, hh⟩ := (Bool.and_eq_true ..).mp hs
    exact hgh.elim (fun f => f.sound hg) fun f => f.sound hh

theorem Fits.seen (hg : g.Fits base d) (hσ : σ.Fits true start d) :
    (shapeReading.seen σ g).Fits base d := by
  simp only [shapeReading]
  split
  · next hout =>
      refine { hg with edge := fun hk => ?_ }
      have hne := hσ.of_rulesOut hout
      simp [hk] at hne
  · exact hg

/-! ### taking a token -/

/-- What the next token is. -/
theorem exists_of_nextItem? {i : Item} (hσ : σ.Fits true start d) (hi : nextItem? σ = some i) :
    ∃ l ls, d.rest = l :: ls ∧ i.Fits (.leaf l.token) ∧ (i = .dot → d.kind = .punct .dot) := by
  unfold nextItem? at hi
  split at hi
  · cases hi
  next hleft =>
  obtain ⟨l, ls, hrest⟩ := List.exists_cons_of_ne_nil (hσ.left (by simpa using hleft))
  have hkind : d.kind = l.token.kind := by simp [Draft.kind, Draft.kindAt, hrest]
  refine ⟨l, ls, hrest, ?_⟩
  split at hi
  · next hdot =>
      obtain rfl := Option.some.inj hi
      have hdot : d.kind = .punct .dot := by simpa using hσ.of_rulesOut hdot
      exact ⟨⟨_, rfl, hkind ▸ hdot⟩, fun _ => hdot⟩
  · split at hi
    · next hmark =>
        obtain rfl := Option.some.inj hi
        have hmark : d.kind ≠ .punct .dot := by simpa using hσ.of_rulesOut hmark
        exact ⟨⟨_, rfl, hkind ▸ hmark⟩, by rintro ⟨⟩⟩
    · cases hi

theorem fitsAll_simplify {is : List Item} {ts : List Tree} (h : List.Forall₂ Item.Fits is ts)
    (hlast : ∀ t ∈ ts.head?, t.Simple) : List.Forall₂ Item.Fits (simplify is) ts := by
  cases h with
  | nil => exact .nil
  | @cons i t is ts hi hrest =>
      cases i with
      | expression b => exact .cons ⟨hi.1, fun _ => hlast t rfl⟩ hrest
      | propertyName | dot | mark => exact .cons hi hrest

/-- If a dot comes next, the last tree added is what was known for that. -/
theorem Fits.simplify {is : List Item} (hg : g.Fits base d) (hk : d.kind = .punct .dot)
    (his : g.row = some is) :
    ∃ ts, d.row = ts ++ base ∧
      List.Forall₂ Item.Fits (if g.edge = .any then is else Shape.simplify is) ts := by
  obtain ⟨ts, hts, hfits⟩ := hg.row is his
  refine ⟨ts, hts, ?_⟩
  split
  · exact hfits
  · next hne =>
      refine fitsAll_simplify hfits fun t ht => ?_
      have hhead : d.row.head? = some t := by rw [hts, List.head?_append, Option.mem_def.mp ht]; rfl
      have hedge := hg.edge hk
      rw [hhead] at hedge
      cases hedged : g.edge with
      | shut =>
          rw [hedged] at hedge
          obtain ⟨u, hu, hshut⟩ := hedge
          exact Option.some.inj hu ▸ Or.inr hshut
      | simple =>
          rw [hedged] at hedge
          obtain ⟨u, hu, hsimple⟩ := hedge
          exact Option.some.inj hu ▸ hsimple
      | any => exact absurd hedged hne

theorem Fits.take (hg : g.Fits base d) (hsifted : d.Sifted) (hσ : σ.Fits true start d) :
    (g.take σ).Fits base d.take where
  bare := hg.bare
  row is his := by
    have hnext {i : Item} (hi : nextItem? σ = some i) {js : List Item}
        (hrow : ∃ ts, d.row = ts ++ base ∧ List.Forall₂ Item.Fits js ts) :
        ∃ ts, d.take.row = ts ++ base ∧ List.Forall₂ Item.Fits (i :: js) ts := by
      obtain ⟨l, ls, hrest, hfits, -⟩ := exists_of_nextItem? hσ hi
      obtain ⟨ts, hts, hall⟩ := hrow
      exact ⟨.leaf l.token :: ts, by rw [Draft.row_take hrest (hsifted.of_cons hrest), hts]; rfl,
        .cons hfits hall⟩
    simp only [Shape.take] at his
    split at his
    · next js hi hjs =>
        obtain rfl := Option.some.inj his
        obtain ⟨l, ls, -, -, hdot⟩ := exists_of_nextItem? hσ hi
        exact hnext hi (hg.simplify (hdot rfl) hjs)
    · next i js _ hi hjs =>
        obtain rfl := Option.some.inj his
        exact hnext hi (hg.row js hjs)
    · cases his
  edge _ := by
    simp only [Shape.take]
    split
    · next hleft =>
        obtain ⟨l, ls, hrest⟩ := List.exists_cons_of_ne_nil (hσ.left hleft)
        rw [Draft.row_take hrest (hsifted.of_cons hrest)]
        exact ⟨_, rfl, nofun⟩
    · trivial
  plain hp t ht hk := by
    obtain ⟨hplain, hout⟩ := (Bool.and_eq_true ..).mp hp
    cases hrest : d.rest with
    | nil =>
        rw [Draft.take, hrest, Draft.row_placeTrivia] at ht
        exact hg.plain hplain t ht hk
    | cons l ls =>
        rw [Draft.row_take hrest (hsifted.of_cons hrest), List.mem_cons, Tree.leaf.injEq] at ht
        rcases ht with rfl | ht
        · have hne := hσ.of_rulesOut hout
          simp [Draft.kind, Draft.kindAt, hrest, hk] at hne
        · exact hg.plain hplain t ht hk
  sound hs := (hg.sound hs).take .leaf

/-! ### closing a node -/

/-- Trees of which something is known are the parts of a node. -/
theorem Fits.shaped {k : NodeKind} (hh : h.Fits [] e) (hk : h.makes k = true) :
    Tree.Shaped k e.trees.reverse := by
  unfold Tree.Shaped
  unfold makes at hk
  cases hshapes : k.shapes with
  | some shapes =>
      simp only [hshapes] at hk
      cases hr : h.row with
      | none => simp [hr] at hk
      | some r =>
          rw [hr, Option.any_some] at hk
          obtain ⟨is, his, hle⟩ := List.any_eq_true.mp hk
          obtain ⟨ts, hts, hfits⟩ := hh.row r hr
          have hparts : List.Forall₂ Item.Fits r.reverse (Tree.solids e.trees.reverse) := by
            rw [Tree.solids_reverse, ← Draft.row, hts, List.append_nil]
            exact List.rel_reverse hfits
          exact ⟨is, his, Item.fitsAll_mono hparts hle⟩
  | none =>
      simp only [hshapes] at hk
      intro t ht hdot
      refine List.not_mem_nil (hh.plain hk t (List.mem_filter.mpr ⟨List.mem_reverse.mp ht, ?_⟩) hdot)
      simp [Tree.isSolid, Token.isTrivia, hdot, TokenKind.isTrivia]

theorem Fits.edge_wrap (hh : h.Fits base e) (k : NodeKind) (hk : e.kind = .punct .dot) :
    (h.edge.close k).Fits (some (.node k e.trees.reverse)) := by
  refine Edge.Fits.close ?_
  rw [Draft.getLast?_reverse_trees]
  exact hh.edge hk

theorem Fits.group (hg : g.Fits base d) (hh : h.Fits [] e) :
    (shapeReading.group g h).Fits base (e.rejoin d.placeTrivia) where
  bare := hg.bare
  row is his := by
    simp only [shapeReading, Option.bind_eq_bind, Option.bind_eq_some_iff, Option.pure_def,
      Option.some.injEq] at his
    obtain ⟨hs, hhs, gs, hgs, rfl⟩ := his
    obtain ⟨us, hus, husFits⟩ := hh.row hs hhs
    obtain ⟨ts, hts, htsFits⟩ := hg.row gs hgs
    refine ⟨us ++ ts, ?_, List.rel_append husFits htsFits⟩
    rw [Draft.row_rejoin, Draft.row_placeTrivia, hus, hts]
    simp
  edge hk := by
    have hedge := hh.edge hk
    rw [Draft.row_rejoin, List.head?_append]
    simp only [shapeReading]
    cases hedged : h.edge with
    | shut =>
        rw [hedged] at hedge
        obtain ⟨t, ht, hshut⟩ := hedge
        rw [Option.mem_def.mp ht]
        exact ⟨t, rfl, hshut⟩
    | simple =>
        rw [hedged] at hedge
        obtain ⟨t, ht, hsimple⟩ := hedge
        rw [Option.mem_def.mp ht]
        exact ⟨t, rfl, hsimple⟩
    | any => trivial
  plain hp t ht hk := by
    obtain ⟨hpg, hph⟩ := (Bool.and_eq_true ..).mp hp
    rw [Draft.row_rejoin, Draft.row_placeTrivia, List.mem_append] at ht
    exact ht.elim (fun h => absurd (hh.plain hph t h hk) List.not_mem_nil)
      fun h => hg.plain hpg t h hk
  sound hs := by
    obtain ⟨hsg, hsh⟩ := (Bool.and_eq_true ..).mp hs
    exact (hh.sound hsh).rejoin ((hg.sound hsg).placeTrivia .leaf)

theorem Fits.enclose (hg : g.Fits base d) (hh : h.Fits base e) (k : NodeKind) :
    (shapeReading.enclose k g h).Fits base ((e.wrap k).log .finish) where
  bare := hg.bare
  row is his := by
    simp only [shapeReading] at his
    split at his
    · next hbare =>
        obtain ⟨i, hi, rfl⟩ := Option.map_eq_some_iff.mp his
        exact ⟨[.node k e.trees.reverse], by rw [hg.bare hbare]; rfl,
          .cons (Item.fits_ofKind? hi _) .nil⟩
    · cases his
  edge hk := hh.edge_wrap k hk
  plain _ t ht _ := by simp at ht
  sound hs := by
    obtain ⟨hmakes, hsound⟩ := (Bool.and_eq_true ..).mp hs
    obtain ⟨hbare, hmakes⟩ := (Bool.and_eq_true ..).mp hmakes
    obtain rfl := hg.bare hbare
    exact (hh.sound hsound).all_wrap (hh.shaped hmakes)

theorem Fits.node (hg : g.Fits base d) (hh : h.Fits [] e) (k : NodeKind) :
    (shapeReading.node k g h).Fits base (((e.wrap k).log .finish).rejoin d.placeTrivia) where
  bare := hg.bare
  row is his := by
    simp only [shapeReading, Option.bind_eq_bind, Option.bind_eq_some_iff, Option.pure_def,
      Option.some.injEq] at his
    obtain ⟨i, hi, gs, hgs, rfl⟩ := his
    obtain ⟨ts, hts, hfits⟩ := hg.row gs hgs
    refine ⟨.node k e.trees.reverse :: ts, ?_, .cons (Item.fits_ofKind? hi _) hfits⟩
    rw [Draft.row_rejoin, Draft.row_placeTrivia, Draft.row_log, Draft.row_wrap, hts]
    rfl
  edge hk := hh.edge_wrap k hk
  plain hp t ht hk := by
    rw [Draft.row_rejoin, Draft.row_placeTrivia, Draft.row_log, Draft.row_wrap, List.mem_append,
      List.mem_singleton] at ht
    exact hg.plain hp t (ht.resolve_left (by simp)) hk
  sound hs := by
    obtain ⟨hsg, hbody⟩ := (Bool.and_eq_true ..).mp hs
    obtain ⟨hmakes, hsound⟩ := (Bool.and_eq_true ..).mp hbody
    exact ((hh.sound hsound).all_wrap (hh.shaped hmakes)).rejoin ((hg.sound hsg).placeTrivia .leaf)

/-! ### calling a production -/

theorem needs_eq {p : Production} (h : p.continues = false) :
    needs p = ⟨false, some [], .any, true, true⟩ := by
  cases p <;> first | rfl | cases h

theorem gives_sound (p : Production) : (gives p).plain = true ∧ (gives p).sound = true := by
  cases p <;> exact ⟨rfl, rfl⟩

theorem Fits.called {p : Production} (hg : g.Fits base d)
    (hp : ∀ base, (needs p).Fits base d → (gives p).Fits base e) :
    (Shape.called p g).Fits base e := by
  unfold Shape.called
  split
  · split
    · next hle => exact hp base (hg.mono hle)
    · exact fits_lost base e
  · next hcontinues =>
      split
      · next hsound =>
          -- all trees that are there count as those before
          have hneeds : (needs p).Fits d.row d := by
            rw [needs_eq (by simpa using hcontinues)]
            refine ⟨nofun, fun is his => ?_, fun _ => trivial, fun _ t ht _ => ht,
              fun _ => hg.sound hsound⟩
            obtain rfl := Option.some.inj his
            exact ⟨[], rfl, .nil⟩
          have hgives := hp d.row hneeds
          refine ⟨hg.bare, fun is his => ?_, hgives.edge, fun hplain t ht hk => ?_,
            fun _ => hgives.sound (gives_sound p).2⟩
          · simp only [Option.bind_eq_bind, Option.bind_eq_some_iff, Option.pure_def,
              Option.some.injEq] at his
            obtain ⟨js, hjs, gs, hgs, rfl⟩ := his
            obtain ⟨us, hus, husFits⟩ := hgives.row js hjs
            obtain ⟨ts, hts, htsFits⟩ := hg.row gs hgs
            exact ⟨us ++ ts, by rw [hus, hts, List.append_assoc], List.rel_append husFits htsFits⟩
          · exact hg.plain hplain t (hgives.plain (gives_sound p).1 t ht hk) hk
      · exact fits_lost base e

end Shape

theorem sound_shapeReading : shapeReading.Sound Shape.Fits where
  join := Shape.fits_join
  mono hle hg := hg.mono hle
  lost := Shape.fits_lost
  log _ hg := ⟨hg.bare, hg.row, hg.edge, hg.plain, hg.sound⟩
  seen hσ hg := hg.seen hσ
  take hsifted hσ hg := hg.take hsifted hσ
  opened {d} h := by
    have hrow : d.row = [] := by simp [Draft.row, h]
    refine ⟨fun _ => rfl, fun is his => ?_, fun _ => trivial, fun _ t ht _ => by simp [hrow] at ht,
      fun _ => by simp [Draft.Every, h]⟩
    obtain rfl := Option.some.inj his
    exact ⟨[], hrow, .nil⟩
  group hg hh := hg.group hh
  enclose k hg hh := hg.enclose hh k
  node k hg hh := hg.node hh k
  called _ hp hg := hg.called hp

/-! ## the grammar -/

set_option maxRecDepth 10000 in
/-- From what has to be known when a production is called, its script gets to what is
said to be known then. -/
theorem Production.read_shapes (p : Production) :
    ((p.script.read shapeReading p.entry (shapeReading.needs p)).all fun g =>
      shapeReading.le g (shapeReading.gives p)) = true := by
  cases p with
  | binary least => rfl
  | binaryTail least => rfl
  | suffixes calls => cases calls <;> decide +kernel
  | _ => decide +kernel

theorem read_shapes_moduleItem (source : SourceType) :
    (((Script.moduleItemSpelt source).read shapeReading {} ⟨true, none, .any, true, true⟩).all
      fun g => shapeReading.le g ⟨true, none, .any, true, true⟩) = true := by
  cases source <;> decide +kernel

/-- In a text without problems every node is made of what it can be made of, and dots are
parts of member accesses and meta properties only. -/
theorem shaped_root {source : SourceType} {text : Text} (h : (parse source text).problems = []) :
    Tree.All Tree.Shaped (parse source text).tree := by
  obtain ⟨d, hd, hfits⟩ := sound_shapeReading.ofText .plain
    (sound_shapeReading.holds_grammar .plain Production.read_shapes)
    (read_shapes_moduleItem source) rfl h
  have hall := (hfits.sound rfl).placeTrivia .leaf
  have hrow : d.placeTrivia.row = d.row := d.row_placeTrivia
  rw [← hd] at hall hrow
  refine .node (fun t ht hdot => ?_) fun p hp => hall p (List.mem_reverse.mp hp)
  refine List.not_mem_nil (hfits.plain rfl t ?_ hdot)
  rw [← hrow]
  refine List.mem_filter.mpr ⟨List.mem_reverse.mp ht, ?_⟩
  simp [Tree.isSolid, Token.isTrivia, hdot, TokenKind.isTrivia]

end FreeNames
