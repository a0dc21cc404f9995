import FreeNames.Proofs.Preorder
import FreeNames.Proofs.Punctuation

/-!
# FreeNames.Proofs.Footing

Following where lines end through the scripts.  A `Footing` tells what is known at a
point of a script: whether a line may end before the next token and after it, what the
last part of the open node is, and whether the trees gathered so far are punctuated and
terminated.  `Script.weave` computes it through a script that reports no problem: tests
about line ends are noted, and each node is checked when it is made.

Main statement: `Script.covers_weave`, what is computed is true of every run.
-/

namespace FreeNames

/-! ## what is known -/

/-- What is known of the tokens that come next. -/
structure Outlook where
  /-- No line ends before the next token. -/
  flat : Bool := false
  /-- If the next token is a word, no line ends after it. -/
  flatNext : Bool := false
  /-- The next token is not the word `async`. -/
  plain : Bool := false
deriving DecidableEq

/-- What the last part of a node can be, if there is one. -/
structure LastPart where
  node : Bool := true
  leaf : Bool := true
  /-- A token that is a word. -/
  word : Bool := true
  /-- The word `async`. -/
  async : Bool := true
  /-- There are no other parts. -/
  lone : Bool := false
deriving DecidableEq

/-- How well trees are punctuated. -/
inductive Grade where
  | punctuated
  /-- As the parts of a loop. -/
  | inLoop
  | lost
deriving DecidableEq

/-- What is known at a point of a script. -/
structure Footing where
  ahead : Outlook := {}
  /-- The trees gathered are terminated. -/
  ends : Bool := false
  /-- Parts that have to be are joined. -/
  joined : Bool := false
  last : LastPart := {}
  grade : Grade
deriving DecidableEq

/-! ### less is known -/

namespace Outlook

def join (o p : Outlook) : Outlook :=
  ⟨o.flat && p.flat, o.flatNext && p.flatNext, o.plain && p.plain⟩

def le (o p : Outlook) : Bool :=
  (!p.flat || o.flat) && (!p.flatNext || o.flatNext) && (!p.plain || o.plain)

/-- What is known is true of a draft. -/
structure Fits (o : Outlook) (d : Draft) : Prop where
  flat : o.flat = true → d.newline = false
  flatNext : o.flatNext = true → d.kind = .ident → d.newlineAt 1 = false
  plain : o.plain = true → d.seesWord "async" = false

variable {o p : Outlook} {d e : Draft}

theorem Fits.mono (h : o.Fits d) (hle : o.le p = true) : p.Fits d := by
  simp only [le, Bool.and_eq_true, Bool.or_eq_true, Bool.not_eq_true'] at hle
  obtain ⟨⟨hflat, hnext⟩, hplain⟩ := hle
  exact ⟨fun hp => h.flat (hflat.resolve_left (by simp [hp])),
    fun hp => h.flatNext (hnext.resolve_left (by simp [hp])),
    fun hp => h.plain (hplain.resolve_left (by simp [hp]))⟩

theorem fits_join (h : o.Fits d ∨ p.Fits d) : (o.join p).Fits d where
  flat hf := by
    obtain ⟨ho, hp⟩ := (Bool.and_eq_true ..).mp hf
    exact h.elim (·.flat ho) (·.flat hp)
  flatNext hf := by
    obtain ⟨ho, hp⟩ := (Bool.and_eq_true ..).mp hf
    exact h.elim (·.flatNext ho) (·.flatNext hp)
  plain hf := by
    obtain ⟨ho, hp⟩ := (Bool.and_eq_true ..).mp hf
    exact h.elim (·.plain ho) (·.plain hp)

theorem fits_default (d : Draft) : Fits {} d := ⟨nofun, nofun, nofun⟩

/-- Only the tokens that come next count. -/
theorem Fits.congr (h : o.Fits d) (he : e.Alike d) (hnext : e.newlineAt 1 = d.newlineAt 1) :
    o.Fits e where
  flat ho := he.newline.trans (h.flat ho)
  flatNext ho hk := hnext.trans (h.flatNext ho (he.kind ▸ hk))
  plain ho := by
    rw [Draft.seesWord, Draft.wordAt, he.kindAt, he.textAt]
    exact h.plain ho

theorem Fits.opened (h : o.Fits d) : o.Fits d.placeTrivia.apart :=
  h.congr d.alike_opened (by simp)

end Outlook

namespace LastPart

/-- There are no parts. -/
def nothing : LastPart := ⟨false, false, false, false, true⟩

/-- The last part when a node is added. -/
def addNode (l : LastPart) : LastPart := ⟨true, false, false, false, !l.node && !l.leaf⟩

/-- The last part when a token is added. -/
def addLeaf (word async : Bool) (l : LastPart) : LastPart :=
  ⟨false, true, word, async, !l.node && !l.leaf⟩

def join (l m : LastPart) : LastPart :=
  ⟨l.node || m.node, l.leaf || m.leaf, l.word || m.word, l.async || m.async, l.lone && m.lone⟩

def le (l m : LastPart) : Bool :=
  (!l.node || m.node) && (!l.leaf || m.leaf) && (!l.word || m.word) && (!l.async || m.async) &&
    (!m.lone || l.lone)

/-- A part is as it can be. -/
def Allows (l : LastPart) : Tree → Prop
  | .node _ _ => l.node = true
  | .leaf t =>
    l.leaf = true ∧ (t.kind = .ident → l.word = true) ∧
      (t.kind = .ident → t.text = "async".toList → l.async = true)

/-- What is known is true of the parts of a node, latest first. -/
structure Fits (l : LastPart) (row : List Tree) : Prop where
  allows (x : Tree) : x ∈ row.head? → l.Allows x
  lone : l.lone = true → row.length ≤ 1

/-- The last part may have to be joined to what comes after it, a node or a token. -/
def mayJoin (k : NodeKind) (toNode : Bool) (l : LastPart) : Bool :=
  match k with
  | .returnStmt | .throwStmt | .breakStmt | .continueStmt => l.leaf && toNode
  | .yieldExpr => l.leaf && l.word && toNode
  | .updateExpr => l.node && !toNode
  | .arrowFunction => l.node && !toNode || l.leaf && l.async
  | .functionDecl | .functionExpr | .method => l.leaf && l.async
  | _ => false

variable {l m : LastPart} {k : NodeKind} {row : List Tree}

theorem Fits.mono (h : l.Fits row) (hle : l.le m = true) : m.Fits row := by
  simp only [le, Bool.and_eq_true, Bool.or_eq_true, Bool.not_eq_true'] at hle
  obtain ⟨⟨⟨⟨hnode, hleaf⟩, hword⟩, hasync⟩, hlone⟩ := hle
  refine ⟨fun x hx => ?_, fun hm => h.lone (hlone.resolve_left (by simp [hm]))⟩
  have hx := h.allows x hx
  cases x with
  | node => exact hnode.resolve_left (by simp [show l.node = true from hx])
  | leaf t =>
      obtain ⟨hl, hw, ha⟩ := hx
      exact ⟨hleaf.resolve_left (by simp [hl]), fun hk => hword.resolve_left (by simp [hw hk]),
        fun hk ht => hasync.resolve_left (by simp [ha hk ht])⟩

theorem fits_join (h : l.Fits row ∨ m.Fits row) : (l.join m).Fits row := by
  rcases h with h | h
  · exact h.mono (by simp [le, join]; grind)
  · exact h.mono (by simp [le, join]; grind)

theorem fits_any (row : List Tree) : Fits {} row :=
  ⟨fun x _ => by cases x <;> simp [Allows], nofun⟩

theorem fits_nothing : nothing.Fits [] := ⟨nofun, fun _ => Nat.zero_le _⟩

/-- No part can be the last one, so there is none. -/
theorem Fits.eq_nil (h : l.Fits row) (hl : (!l.node && !l.leaf) = true) : row = [] := by
  simp only [Bool.and_eq_true, Bool.not_eq_true'] at hl
  cases row with
  | nil => rfl
  | cons x row =>
      have hx := h.allows x rfl
      cases x <;> simp [Allows, hl] at hx

theorem Fits.addNode (h : l.Fits row) (k : NodeKind) (parts : List Tree) :
    l.addNode.Fits (.node k parts :: row) := by
  refine ⟨?_, fun hl => by simp [h.eq_nil hl]⟩
  rintro x ⟨⟩
  rfl

theorem Fits.addLeaf {word async : Bool} {t : Token} (h : l.Fits row)
    (hword : t.kind = .ident → word = true)
    (hasync : t.kind = .ident → t.text = "async".toList → async = true) :
    (l.addLeaf word async).Fits (.leaf t :: row) := by
  refine ⟨?_, fun hl => by simp [h.eq_nil hl]⟩
  rintro x ⟨⟩
  exact ⟨rfl, hword, hasync⟩

theorem Allows.async {t : Token} (h : l.Allows (.leaf t))
    (ht : (t.kind = .ident && t.text = "async".toList) = true) : (l.leaf && l.async) = true := by
  obtain ⟨hk, hs⟩ := Bool.and_eq_true_iff.mp ht
  exact Bool.and_eq_true_iff.mpr ⟨h.1, h.2.2 (of_decide_eq_true hk) (of_decide_eq_true hs)⟩

/-- What has to be joined may have to be. -/
theorem Fits.mayJoin {x y : Tree} (h : l.Fits row) (hx : x ∈ row.head?)
    (hj : k.joins x y = true) : l.mayJoin k y.isNode = true := by
  have hx := h.allows x hx
  -- a case for each kind of node that joins two parts, in the order of `NodeKind.joins`
  unfold NodeKind.joins at hj
  split at hj
  case h_1 | h_2 | h_3 | h_4 => exact Bool.and_eq_true_iff.mpr ⟨hx.1, rfl⟩
  case h_5 =>
    have hword := Bool.and_eq_true_iff.mpr ⟨hx.1, hx.2.1 (of_decide_eq_true hj)⟩
    exact Bool.and_eq_true_iff.mpr ⟨hword, rfl⟩
  case h_6 => exact Bool.and_eq_true_iff.mpr ⟨hx, rfl⟩
  case h_7 => exact Bool.or_eq_true_iff.mpr (Or.inl (Bool.and_eq_true_iff.mpr ⟨hx, rfl⟩))
  case h_8 | h_9 | h_11 => exact hx.async hj
  case h_10 => exact Bool.or_eq_true_iff.mpr (Or.inr (hx.async hj))
  case h_12 => cases hj

end LastPart

namespace Grade

def join : Grade → Grade → Grade
  | lost, _ | _, lost => lost
  | inLoop, _ | _, inLoop => inLoop
  | punctuated, punctuated => punctuated

def le : Grade → Grade → Bool
  | _, lost | punctuated, _ | inLoop, inLoop => true
  | _, _ => false

/-- What is known is true of the trees of a draft. -/
def Fits : Grade → Draft → Prop
  | punctuated, d => d.Punctuated false
  | inLoop, d => d.Punctuated true
  | lost, _ => True

variable {a b : Grade} {d e : Draft}

theorem Fits.mono (h : a.Fits d) (hle : a.le b = true) : b.Fits d := by
  cases a <;> cases b <;> first | trivial | exact h | exact Draft.Punctuated.mono h

theorem le_join_left (a b : Grade) : a.le (a.join b) = true := by cases a <;> cases b <;> rfl

theorem le_join_right (a b : Grade) : b.le (a.join b) = true := by cases a <;> cases b <;> rfl

theorem fits_join (h : a.Fits d ∨ b.Fits d) : (a.join b).Fits d :=
  h.elim (fun h => h.mono (le_join_left a b)) fun h => h.mono (le_join_right a b)

theorem Fits.of_imp (h : a.Fits d) (himp : ∀ inLoop, d.Punctuated inLoop → e.Punctuated inLoop) :
    a.Fits e := by
  cases a with
  | punctuated => exact himp false h
  | inLoop => exact himp true h
  | lost => trivial

/-- Trees that were gathered apart come after others. -/
theorem Fits.rejoin (hd : a.Fits d) (he : b.Fits e) (hreads : Draft.Reads d.apart e) :
    (a.join b).Fits (e.rejoin d) := by
  have hd := hd.mono (le_join_left a b)
  have he := he.mono (le_join_right a b)
  cases h : a.join b with
  | lost => trivial
  | punctuated | inLoop =>
      rw [h] at hd he
      exact Draft.Punctuated.rejoin hd he hreads

end Grade

/-! ## what a script does -/

/-- Productions that add one node. -/
def Production.isOne : Production → Bool
  | .block | .expression | .assignment | .conditional | .binary _ | .unary | .operand
  | .newExpr => true
  | _ => false

namespace Footing

def join (g h : Footing) : Footing :=
  ⟨g.ahead.join h.ahead, g.ends && h.ends, g.joined && h.joined, g.last.join h.last,
    g.grade.join h.grade⟩

def le (g h : Footing) : Bool :=
  g.ahead.le h.ahead && (!h.ends || g.ends) && (!h.joined || g.joined) && g.last.le h.last &&
    g.grade.le h.grade

/-- No line ends before a part that has to be joined to those before. -/
def fastens (g : Footing) (k : NodeKind) (toNode : Bool) : Bool :=
  g.joined && (!g.last.mayJoin k toNode || g.ahead.flat)

/-- The next token is taken. -/
def take (k : NodeKind) (σ : Sight) (g : Footing) : Footing where
  ahead := { flat := g.ahead.flatNext && σ.rulesOut fun k => k ≠ .ident }
  ends := σ.rulesOut fun k => k ≠ .punct .semicolon
  joined := σ.left && g.fastens k false
  last :=
    if σ.left then
      g.last.addLeaf (!σ.rulesOut fun k => k = .ident)
        (!(σ.rulesOut fun k => k = .ident) && !g.ahead.plain)
    else {}
  grade := g.grade

/-- A group or node starts with no trees. -/
def opened (g : Footing) : Footing where
  ahead := g.ahead
  joined := true
  last := .nothing
  grade := .punctuated

/-- What a node is that is made of all the trees gathered. -/
def closed (j : NodeKind) (h : Footing) : Grade :=
  if j.isJoint && !h.joined || j.isTerminated && !h.ends || !h.grade.le .inLoop ||
      !(j.isLoop || h.grade.le .punctuated) then .lost
  else if j = .varDecl && !h.ends then .inLoop
  else .punctuated

/-- A node of kind `j` comes after the trees before it. -/
def node (k j : NodeKind) (g h : Footing) : Footing where
  ahead := h.ahead
  joined := g.fastens k true
  last := g.last.addNode
  grade := g.grade.join (h.closed j)

/-- The trees of a group come after those before. -/
def group (g h : Footing) : Footing where
  ahead := h.ahead
  grade := g.grade.join h.grade

/-- All trees will be part of a node of kind `j`. -/
def turned (k j : NodeKind) (g : Footing) : Footing :=
  { g with joined := g.joined && k = j || g.last.lone }

/-- All trees are enclosed in a node of kind `j`. -/
def enclosed (j : NodeKind) (h : Footing) : Footing where
  ahead := h.ahead
  joined := true
  last := LastPart.nothing.addNode
  grade := h.closed j

/-- A production has been called. -/
def called (k : NodeKind) (p : Production) (g : Footing) : Footing where
  joined := p.isOne && g.fastens k true
  last := if p.isOne then g.last.addNode else {}
  grade := if p.continues && !g.grade.le .punctuated then .lost else g.grade

/-- What stays known through the items of a list. -/
def widened (g : Footing) : Footing where
  grade := g.grade

end Footing

/-- What the answer to a test tells. -/
@[simp] def Test.note (answer : Bool) : Test → Footing → Footing
  | ended, g => { g with ends := g.ends || answer }
  | sees k, g =>
    { g with
      ahead := { g.ahead with
        flatNext := g.ahead.flatNext || answer && k ≠ .ident
        plain := g.ahead.plain || answer && k ≠ .ident }
      ends := g.ends || answer && k = .punct .rBrace }
  | newlineAt 0, g =>
    { g with
      ahead := { g.ahead with flat := g.ahead.flat || !answer }
      ends := g.ends || answer }
  | newlineAt 1, g =>
    { g with ahead := { g.ahead with flatNext := g.ahead.flatNext || !answer } }
  | wordAt 0 w _, g =>
    { g with ahead := { g.ahead with
      plain := g.ahead.plain || if answer then w ≠ "async" else w = "async" } }
  | not t, g => t.note (!answer) g
  | and s t, g => if answer then t.note true (s.note true g) else g
  | or s t, g =>
    if answer then (s.note true g).join (t.note true g) else t.note false (s.note false g)
  | _, g => g

/-- What is known after a script that reports no problem; nothing if all runs report one.
The trees are parts of a node of kind `k`, or will be enclosed in one. -/
@[simp] def Script.weave (k : NodeKind) : Script → Sight → Footing → Option Footing
  | done, _, g => some g
  | take, σ, g => some (g.take k σ)
  | report _, _, _ => none
  | single j, σ, g => some (g.node k j (g.opened.take j σ))
  | seq a b, σ, g => (a.weave k σ g).bind fun h => (a.flow true σ).bind fun τ => b.weave k τ h
  | choose t a b, σ, g =>
    Option.merge Footing.join ((t.tell true σ).bind fun τ => a.weave k τ (t.note true g))
      ((t.tell false σ).bind fun τ => b.weave k τ (t.note false g))
  | look f, σ, g =>
    ((Sight.kinds σ.first).map fun j => (f j).weave k (σ.only j) g).foldr
      (Option.merge Footing.join) none
  | ask t f, σ, g =>
    Option.merge Footing.join ((t.tell true σ).bind fun τ => (f true).weave k τ (t.note true g))
      ((t.tell false σ).bind fun τ => (f false).weave k τ (t.note false g))
  -- groups are enclosed in methods, or in nodes of one part that is a node
  | group a, σ, g => (a.weave .method σ g.opened).map g.group
  | enclose j a, σ, g => (a.weave j σ (g.turned k j)).map (Footing.enclosed j)
  | node j a, σ, g => (a.weave j σ g.opened).map (g.node k j)
  | .call p _, _, g => some (g.called k p)
  | advance a, σ, g => a.weave k σ g
  | list _ item, σ, g =>
    let w := (g.take k σ).widened
    some { w with
      grade := if (item.weave k {} w).all fun h => h.le w && (h.take k .comma).le w then w.grade
        else .lost }

/-! ## what is known is true -/

/-- A relation that steps keep, where no problem is reported. -/
theorem Steady.unreported {R : Draft → Draft → Prop} (hR : Steady R) :
    Steady fun d e => Later d e ∧ (e.problems = [] → R d e) where
  refl d := ⟨steady_later.refl d, fun _ => hR.refl d⟩
  trans hl hr :=
    ⟨steady_later.trans hl.1 hr.1, fun h => hR.trans (hl.2 (hr.1.problems h)) (hr.2 h)⟩
  placeTrivia d := ⟨steady_later.placeTrivia d, fun _ => hR.placeTrivia d⟩
  take d := ⟨steady_later.take d, fun _ => hR.take d⟩
  report d c hc := ⟨steady_later.report d hc, fun _ => hR.report d hc⟩
  group h := ⟨steady_later.group h.1, fun hok => hR.group (h.2 hok)⟩
  enclose hk h := ⟨steady_later.enclose hk h.1, fun hok => hR.enclose hk (h.2 hok)⟩
  node hk h := ⟨steady_later.node hk h.1, fun hok => hR.node hk (h.2 hok)⟩

/-- What productions have to do for footings to be right: where they report no problem
they do what the grammar does, and keep trees punctuated. -/
structure Trusted (call : Call) : Prop where
  obeys (start : Draft) : Obeys true start call
  eq_grammar {p : Production} {ctx : Context} {d : Draft} :
    (call p ctx d).problems = [] → call p ctx d = grammar p ctx d
  keeps {p : Production} {ctx : Context} {d : Draft} {inLoop : Bool} :
    (call p ctx d).problems = [] → d.Aligned → (p.continues = true → inLoop = false) →
      d.Punctuated inLoop → (call p ctx d).Punctuated inLoop

/-- What each step keeps, scripts keep whose calls are trusted. -/
theorem Trusted.run {R : Draft → Draft → Prop} {call : Call} (hcall : Trusted call)
    (hR : Steady R) {ctx : Context} {s : Script} {d : Draft}
    (hrun : (s.run call ctx d).problems = []) : R d (s.run call ctx d) := by
  refine (hR.unreported.run (fun p ctx d => ⟨(hcall.obeys d).later p ctx d, fun hok => ?_⟩)
    ctx s d).2 hrun
  rw [hcall.eq_grammar hok]
  exact hR.derive _ p ctx d

theorem row_grammar {p : Production} (hp : p.isOne = true) {ctx : Context} {d : Draft}
    (h : (grammar p ctx d).problems = []) :
    ∃ k parts, (grammar p ctx d).row = .node k parts :: d.row := by
  by_cases hblock : p = .block
  · subst hblock
    rw [grammar_eq_rule, Production.rule_eq_run]
    exact ⟨_, _, row_node d .blockStmt _⟩
  · have hneeds : p.needs = ⟨false, .nothing, .any⟩ := by
      cases p <;> first | rfl | simp [Production.isOne] at hp
    have hgives : p.gives.row = .one := by
      cases p <;> first | rfl | exact absurd rfl hblock | simp [Production.isOne] at hp
    have hfits := (grows_grammar p ctx d d.row h
      (hneeds ▸ ⟨nofun, rfl, fun _ => Or.inl rfl⟩)).row
    rw [hgives] at hfits
    obtain ⟨k, parts, hrow, -⟩ := hfits
    exact ⟨k, parts, hrow⟩

namespace Footing

/-- What is known is true of a draft. -/
structure Fits (k : NodeKind) (g : Footing) (d : Draft) : Prop where
  aligned : d.Aligned
  ahead : g.ahead.Fits d
  ends : g.ends = true → Terminated (Tree.tokensAll d.trees.reverse) d.left
  joined : g.joined = true → Tree.Joined k d.trees
  last : g.last.Fits d.row
  grade : g.grade.Fits d

variable {k j : NodeKind} {g h : Footing} {start d e : Draft} {σ : Sight}

theorem Fits.mono (hg : g.Fits k d) (hle : g.le h = true) : h.Fits k d := by
  simp only [le, Bool.and_eq_true, Bool.or_eq_true, Bool.not_eq_true'] at hle
  obtain ⟨⟨⟨⟨hahead, hends⟩, hjoined⟩, hlast⟩, hgrade⟩ := hle
  exact ⟨hg.aligned, hg.ahead.mono hahead, fun hh => hg.ends (hends.resolve_left (by simp [hh])),
    fun hh => hg.joined (hjoined.resolve_left (by simp [hh])), hg.last.mono hlast,
    hg.grade.mono hgrade⟩

theorem fits_join (hgh : g.Fits k d ∨ h.Fits k d) : (g.join h).Fits k d where
  aligned := hgh.elim (·.aligned) (·.aligned)
  ahead := Outlook.fits_join (hgh.imp (·.ahead) (·.ahead))
  ends hs := by
    obtain ⟨hg, hh⟩ := (Bool.and_eq_true ..).mp hs
    exact hgh.elim (·.ends hg) (·.ends hh)
  joined hs := by
    obtain ⟨hg, hh⟩ := (Bool.and_eq_true ..).mp hs
    exact hgh.elim (·.joined hg) (·.joined hh)
  last := LastPart.fits_join (hgh.imp (·.last) (·.last))
  grade := Grade.fits_join (hgh.imp (·.grade) (·.grade))

/-! ### tests -/

theorem terminated_of_mayEnd {own after : List Token} (h : MayEnd after) :
    Terminated own after := fun _ _ _ => Or.inr h

theorem mayEnd_of_ended (hd : d.Sifted) (h : d.ended = true) : MayEnd d.left := by
  rw [MayEnd, hd.solid_left, Draft.ahead, List.isEmpty_iff.mp h]
  rintro u ⟨⟩

theorem mayEnd_of_sees (hd : d.Sifted) (h : d.sees (.punct .rBrace) = true) : MayEnd d.left := by
  intro u hu
  rw [hd.solid_left] at hu
  have hkind := d.kindAt_eq 0
  rw [← Draft.kind, Draft.kind_of_sees h, ← List.head?_eq_getElem?, Option.mem_def.mp hu] at hkind
  exact Or.inl hkind.symm

/-- Where a line ends before the next token, it ends after the last token taken. -/
theorem terminated_of_newline (hd : d.Aligned) (h : d.newline = true) :
    Terminated (Tree.tokensAll d.trees.reverse) d.left := by
  intro t ht htrivia
  refine Or.inr fun u _ => Or.inr ?_
  have hlast : d.placed.head? = some t := by
    obtain ⟨front, hfront⟩ := hd.gathered
    rw [← List.getLast?_reverse, ← hfront, List.getLast?_append, Option.mem_def.mp ht]
    rfl
  have hnone : d.placed.takeWhile Token.isTrivia = [] := by
    obtain ⟨more, hmore⟩ := List.head?_eq_some_iff.mp hlast
    rw [hmore, List.takeWhile_cons_of_neg (by simp [htrivia])]
  have hhere := hd.lined.here
  rw [← Draft.newline_eq, h, hnone, List.nil_append, eq_comm, List.any_eq_true] at hhere
  rw [hd.lined.sifted.takeWhile_left]
  exact hhere

theorem Fits.note {t : Test} {answer : Bool} {ctx : Context} (hg : g.Fits k d)
    (ht : t.holds ctx d = answer) : (t.note answer g).Fits k d := by
  induction t generalizing answer g with
  | ended =>
      refine { hg with ends := fun hs => ?_ }
      rcases (Bool.or_eq_true ..).mp hs with hs | rfl
      · exact hg.ends hs
      · exact terminated_of_mayEnd (mayEnd_of_ended hg.aligned.lined.sifted ht)
  | sees j =>
      have hsees {b : Bool} (hb : (answer && b) = true) : d.sees j = true ∧ b = true := by
        obtain ⟨rfl, hb⟩ := (Bool.and_eq_true ..).mp hb
        exact ⟨ht, hb⟩
      refine { hg with
        ahead := ⟨hg.ahead.flat, fun hs hk => ?_, fun hs => ?_⟩
        ends := fun hs => ?_ }
      · rcases (Bool.or_eq_true ..).mp hs with hs | hs
        · exact hg.ahead.flatNext hs hk
        · obtain ⟨hd, hj⟩ := hsees hs
          exact absurd ((Draft.kind_of_sees hd).symm.trans hk) (of_decide_eq_true hj)
      · rcases (Bool.or_eq_true ..).mp hs with hs | hs
        · exact hg.ahead.plain hs
        · obtain ⟨hd, hj⟩ := hsees hs
          have hne : d.kindAt 0 ≠ .ident := by
            rw [← Draft.kind, Draft.kind_of_sees hd]
            exact of_decide_eq_true hj
          simp [Draft.seesWord, Draft.wordAt, hne]
      · rcases (Bool.or_eq_true ..).mp hs with hs | hs
        · exact hg.ends hs
        · obtain ⟨hd, hj⟩ := hsees hs
          obtain rfl := of_decide_eq_true hj
          exact terminated_of_mayEnd (mayEnd_of_sees hg.aligned.lined.sifted hd)
  | newlineAt n =>
      rcases n with _ | _ | n
      · refine { hg with
          ahead := ⟨fun hs => ?_, hg.ahead.flatNext, hg.ahead.plain⟩
          ends := fun hs => ?_ }
        · rcases (Bool.or_eq_true ..).mp hs with hs | hs
          · exact hg.ahead.flat hs
          · exact ht.trans (by simpa using hs)
        · rcases (Bool.or_eq_true ..).mp hs with hs | rfl
          · exact hg.ends hs
          · exact terminated_of_newline hg.aligned ht
      · refine { hg with ahead := ⟨hg.ahead.flat, fun hs hk => ?_, hg.ahead.plain⟩ }
        rcases (Bool.or_eq_true ..).mp hs with hs | hs
        · exact hg.ahead.flatNext hs hk
        · exact ht.trans (by simpa using hs)
      · exact hg
  | wordAt n w hw =>
      cases n with
      | zero =>
          refine { hg with ahead := ⟨hg.ahead.flat, hg.ahead.flatNext, fun hs => ?_⟩ }
          rcases (Bool.or_eq_true ..).mp hs with hs | hs
          · exact hg.ahead.plain hs
          · cases answer with
            | true =>
                have hne : w.toList ≠ "async".toList :=
                  fun heq => (of_decide_eq_true hs) (String.toList_injective heq)
                simp only [Test.holds, Draft.wordAt, Bool.and_eq_true, decide_eq_true_eq] at ht
                simp only [Draft.seesWord, Draft.wordAt, ht.2, hne, decide_false, Bool.and_false]
            | false =>
                obtain rfl := of_decide_eq_true hs
                exact ht
      | succ n => exact hg
  | not t ih => exact ih hg (by simpa using ht)
  | and s t ihs iht =>
      cases answer with
      | false => exact hg
      | true =>
          obtain ⟨hs, ht⟩ := (Bool.and_eq_true ..).mp ht
          exact iht (ihs hg hs) ht
  | or s t ihs iht =>
      cases answer with
      | true =>
          rcases (Bool.or_eq_true ..).mp ht with hs | ht
          · exact fits_join (Or.inl (ihs hg hs))
          · exact fits_join (Or.inr (iht hg ht))
      | false =>
          obtain ⟨hs, ht⟩ := Bool.or_eq_false_iff.mp ht
          exact iht (ihs hg hs) ht
  | seesAny | kindAt | backtick | arrow | fromAfter | context | given => exact hg

/-! ### trees -/

/-- A part has been added that is joined to those before if it has to be. -/
theorem Fits.fasten {y : Tree} (hg : g.Fits k d) (hputs : d.Puts e y)
    (hfast : g.fastens k y.isNode = true) : Tree.Joined k e.trees := by
  obtain ⟨hjoined, hline⟩ := (Bool.and_eq_true ..).mp hfast
  refine hputs.joined hg.aligned (hg.joined hjoined) fun x hx hj => hg.ahead.flat ?_
  simpa [hg.last.mayJoin hx hj] using hline

theorem terminated_take (hd : d.kind = .punct .semicolon) :
    Terminated (Tree.tokensAll d.take.trees.reverse) d.take.left := by
  obtain ⟨l, ls, hrest⟩ := List.exists_cons_of_ne_nil (Draft.rest_ne_nil_of_kind hd (by simp))
  intro t ht _
  rw [Draft.take_cons hrest] at ht
  obtain rfl : l.token = t := by simpa using ht
  exact Or.inl (by simpa [Draft.kind, Draft.kindAt, hrest] using hd)

/-- The last part is the token that was taken. -/
theorem Fits.last_take (hg : g.Fits k d) (hσ : σ.Fits true start d) :
    (g.take k σ).last.Fits d.take.row := by
  by_cases hleft : σ.left = true
  · obtain ⟨l, ls, hrest⟩ := List.exists_cons_of_ne_nil (hσ.left hleft)
    have hl : d.kind = l.token.kind := by simp [Draft.kind, Draft.kindAt, hrest]
    have hword (hk : l.token.kind = .ident) : (!σ.rulesOut fun i => i = .ident) = true := by
      by_contra hout
      simpa [hl, hk] using hσ.of_rulesOut (p := fun i => i = .ident) (by simpa using hout)
    rw [Draft.row_take hrest (hg.aligned.lined.sifted.of_cons hrest)]
    simp only [Footing.take, hleft, if_true]
    refine hg.last.addLeaf hword fun hk ht => ?_
    rw [hword hk, Bool.true_and, Bool.not_eq_true', ← Bool.not_eq_true]
    intro hplain
    have hsees := hg.ahead.plain hplain
    simp [Draft.seesWord, Draft.wordAt, Draft.kindAt, Draft.textAt, hrest, hk, ht] at hsees
  · simp only [Footing.take, hleft]
    exact LastPart.fits_any _

theorem Fits.take (hg : g.Fits k d) (hσ : σ.Fits true start d) : (g.take k σ).Fits k d.take := by
  have hkind {i : TokenKind} (hi : (σ.rulesOut fun i' => i' ≠ i) = true) : d.kind = i := by
    simpa using hσ.of_rulesOut hi
  refine ⟨hg.aligned.take, ⟨fun hf => ?_, nofun, nofun⟩, fun hs => terminated_take (hkind hs),
    fun hs => ?_, hg.last_take hσ, hg.grade.of_imp fun _ => Draft.Punctuated.take⟩
  · obtain ⟨hnext, hident⟩ := (Bool.and_eq_true ..).mp hf
    have hident := hkind hident
    rw [Draft.newline, Draft.newlineAt_take_succ (Draft.rest_ne_nil_of_kind hident (by simp))]
    exact hg.ahead.flatNext hnext hident
  · obtain ⟨hleft, hfast⟩ := (Bool.and_eq_true ..).mp hs
    obtain ⟨l, ls, hrest⟩ := List.exists_cons_of_ne_nil (hσ.left hleft)
    have hrow := Draft.row_take hrest (hg.aligned.lined.sifted.of_cons hrest)
    exact hg.fasten (y := .leaf l.token)
      (Draft.puts_of_row d.suffix_trees_take hrow (Draft.reads_take d)) hfast

theorem Fits.opened (hg : g.Fits k d) (j : NodeKind) : g.opened.Fits j d.placeTrivia.apart where
  aligned := hg.aligned.opened
  ahead := hg.ahead.opened
  ends := nofun
  joined _ := trivial
  last := LastPart.fits_nothing
  grade := Draft.Punctuated.opened _

theorem Fits.started (hg : g.Fits k d) (j : NodeKind) :
    g.opened.Fits j (d.placeTrivia.apart.log (.start j)) where
  aligned := hg.aligned.opened.congr rfl rfl rfl (Or.inl rfl)
  ahead := hg.ahead.opened.congr ⟨rfl, rfl, rfl, rfl⟩ rfl
  ends := nofun
  joined _ := trivial
  last := LastPart.fits_nothing
  grade := Draft.Punctuated.opened _

theorem Fits.turned (hg : g.Fits k d) (j : NodeKind) :
    (g.turned k j).Fits j (d.log (.startAt d.base j)) where
  aligned := hg.aligned.congr rfl rfl rfl (Or.inr rfl)
  ahead := hg.ahead.congr (d.alike_restarted j) rfl
  ends := hg.ends
  joined hs := by
    rcases (Bool.or_eq_true ..).mp hs with hs | hlone
    · obtain ⟨hjoined, hkj⟩ := (Bool.and_eq_true ..).mp hs
      exact of_decide_eq_true hkj ▸ hg.joined hjoined
    · exact Tree.joined_of_length_solids (hg.last.lone hlone)
  last := hg.last
  grade := hg.grade.of_imp fun _ => id

/-- A node that passes its check. -/
theorem Fits.closed (hh : h.Fits j e) : (h.closed j).Fits ((e.wrap j).log .finish) := by
  unfold Footing.closed
  split
  · trivial
  · next hcheck =>
      simp only [Bool.or_eq_true, Bool.and_eq_true, Bool.not_eq_true', not_or, not_and,
        Bool.not_eq_false] at hcheck
      obtain ⟨⟨⟨hjoined, hends⟩, hloop⟩, hgrade⟩ := hcheck
      have hjoined : Tree.Joined j e.trees := by
        cases hj : j.isJoint with
        | true => exact hh.joined (hjoined hj)
        | false => exact Tree.joined_of_not_isJoint hj _
      have hinner : e.Punctuated j.isLoop := by
        cases hj : j.isLoop with
        | true => exact hh.grade.mono hloop
        | false => exact hh.grade.mono (hgrade.resolve_left (by simp [hj]))
      split
      · next hvar =>
          obtain ⟨hvar, -⟩ := (Bool.and_eq_true ..).mp hvar
          obtain rfl := of_decide_eq_true hvar
          exact hinner.wrap nofun hjoined
      · next hvar =>
          refine hinner.wrap (fun hmust => hh.ends ?_) hjoined
          simp only [NodeKind.mustEnd, Bool.not_false, Bool.and_true, Bool.or_eq_true] at hmust
          rcases hmust with hmust | hmust
          · exact hends hmust
          · simpa [hmust] using hvar

theorem Fits.node (hg : g.Fits k d) (hh : h.Fits j e)
    (hreads : Draft.Reads (d.placeTrivia.apart.log (.start j)) e) :
    (g.node k j h).Fits k (((e.wrap j).log .finish).rejoin d.placeTrivia) := by
  have hall := Draft.steady_reads.trans (Draft.reads_placeTrivia d)
    (Draft.steady_reads.node rfl hreads)
  have hrow : (((e.wrap j).log .finish).rejoin d.placeTrivia).row =
      .node j e.trees.reverse :: d.row := by simp
  refine ⟨hg.aligned.reads (hh.aligned.lined.congr rfl rfl rfl) hall,
    hh.ahead.congr ⟨rfl, rfl, rfl, rfl⟩ rfl, nofun,
    hg.fasten (Draft.puts_of_row (d.suffix_trees_rejoin _) hrow hall), ?_, ?_⟩
  · rw [hrow]
    exact hg.last.addNode j _
  · refine (hg.grade.of_imp fun _ => Draft.Punctuated.placeTrivia).rejoin hh.closed ?_
    obtain ⟨new, htrees, hplaced, hleft⟩ := hreads
    exact ⟨new, by simpa using htrees, hplaced, hleft⟩

theorem Fits.group (hg : g.Fits k d) (hh : h.Fits j e)
    (hreads : Draft.Reads d.placeTrivia.apart e) :
    (g.group h).Fits k (e.rejoin d.placeTrivia) where
  aligned := hg.aligned.reads (hh.aligned.lined.congr rfl rfl rfl)
    (Draft.steady_reads.trans (Draft.reads_placeTrivia d) (Draft.steady_reads.group hreads))
  ahead := hh.ahead.congr ⟨rfl, rfl, rfl, rfl⟩ rfl
  ends := nofun
  joined := nofun
  last := LastPart.fits_any _
  grade := (hg.grade.of_imp fun _ => Draft.Punctuated.placeTrivia).rejoin hh.grade hreads

theorem Fits.enclosed (hh : h.Fits j e) :
    (h.enclosed j).Fits k ((e.wrap j).log .finish) where
  aligned := by
    have hplaced : ((e.wrap j).log .finish).placed = e.placed := rfl
    refine ⟨hh.aligned.lined.congr rfl rfl rfl, ?_⟩
    rw [hplaced]
    simpa using hh.aligned.gathered
  ahead := hh.ahead.congr (e.alike_closed j) rfl
  ends := nofun
  joined _ := Tree.joined_of_length_solids (Nat.le_refl 1)
  last := LastPart.fits_nothing.addNode j _
  grade := hh.closed

theorem Fits.called {call : Call} (hcall : Trusted call) {p : Production} {ctx : Context}
    (hg : g.Fits k d) (hrun : (call p ctx d).problems = []) :
    (g.called k p).Fits k (call p ctx d) := by
  have heq := hcall.eq_grammar hrun
  have hreads : Draft.Reads d (call p ctx d) := heq ▸ Draft.steady_reads.derive _ p ctx d
  have hlined : (call p ctx d).Lined :=
    heq ▸ Draft.steady_lined.derive _ p ctx d hg.aligned.lined
  refine ⟨hg.aligned.reads hlined hreads, Outlook.fits_default _, nofun, fun hs => ?_, ?_, ?_⟩
  · obtain ⟨hp, hfast⟩ := (Bool.and_eq_true ..).mp hs
    have hcontinues : p.continues = false := by
      cases p <;> first | rfl | simp [Production.isOne] at hp
    obtain ⟨j, parts, hrow⟩ := row_grammar hp (heq ▸ hrun)
    have htrees : d.trees <:+ (call p ctx d).trees := heq ▸ suffix_trees_grammar hcontinues ctx d
    exact hg.fasten (y := .node j parts) (Draft.puts_of_row htrees (heq ▸ hrow) hreads) hfast
  · by_cases hp : p.isOne = true
    · obtain ⟨j, parts, hrow⟩ := row_grammar hp (heq ▸ hrun)
      simp only [Footing.called, hp, if_true]
      rw [heq, hrow]
      exact hg.last.addNode j parts
    · simp only [Footing.called, hp]
      exact LastPart.fits_any _
  · simp only [Footing.called]
    split
    · trivial
    · next hlost =>
        have hlost : p.continues = true → g.grade.le .punctuated = true := by simpa using hlost
        have hkeeps {inLoop : Bool} (hloop : p.continues = true → inLoop = false)
            (hd : d.Punctuated inLoop) := hcall.keeps hrun hg.aligned hloop hd
        cases hgrade : g.grade with
        | lost => trivial
        | punctuated =>
            have hd := hg.grade
            rw [hgrade] at hd
            exact hkeeps (fun _ => rfl) hd
        | inLoop =>
            have hd := hg.grade
            rw [hgrade] at hd hlost
            exact hkeeps (fun hp => nomatch hlost hp) hd

theorem Fits.widened (hg : g.Fits k d) : g.widened.Fits k d :=
  ⟨hg.aligned, Outlook.fits_default d, nofun, nofun, LastPart.fits_any _, hg.grade⟩

end Footing

/-- What is computed for a script is true of every run that reports no problem. -/
theorem Script.covers_weave {start d : Draft} {call : Call} (hcall : Trusted call) (ctx : Context)
    (s : Script) {k : NodeKind} {σ : Sight} {g : Footing} (hσ : σ.Fits true start d)
    (hg : g.Fits k d) (hrun : (s.run call ctx d).problems = []) :
    ∃ h, s.weave k σ g = some h ∧ h.Fits k (s.run call ctx d) := by
  have hobeys := hcall.obeys start
  induction s generalizing k σ g d with
  | done => exact ⟨g, rfl, hg⟩
  | take => exact ⟨_, rfl, hg.take hσ⟩
  | report c => simp [run] at hrun
  | single j =>
      exact ⟨_, rfl, hg.node ((hg.started j).take (hσ.alike (d.alike_started j)))
        (Draft.reads_take _)⟩
  | seq a b iha ihb =>
      have hmid : (a.run call ctx d).problems = [] := (hobeys.later_run ctx b _).problems hrun
      obtain ⟨h, ha, hh⟩ := iha hσ hg hmid
      obtain ⟨τ, hτ, hfits⟩ := fits_flow hobeys ctx a hσ fun _ => hmid
      rw [weave, ha, hτ]
      exact ihb hfits hh hrun
  | choose t a b iha ihb =>
      refine exists_merge (fun _ _ => Footing.fits_join) ?_
      rw [run] at hrun ⊢
      split at hrun
      · next ht =>
          obtain ⟨τ, hτ, hfits⟩ := t.covers_tell ctx hσ ht
          rw [if_pos ht, hτ]
          exact Or.inl (iha hfits (hg.note ht) hrun)
      · next ht =>
          rw [Bool.not_eq_true] at ht
          obtain ⟨τ, hτ, hfits⟩ := t.covers_tell ctx hσ ht
          rw [if_neg (by simp [ht]), hτ]
          exact Or.inr (ihb hfits (hg.note ht) hrun)
  | look f ih =>
      exact exists_foldr_merge (fun _ _ => Footing.fits_join) (List.mem_map_of_mem hσ.first)
        (ih _ hσ.only hg hrun)
  | ask t f ih =>
      refine exists_merge (fun _ _ => Footing.fits_join) ?_
      rw [run] at hrun ⊢
      cases ht : t.holds ctx d with
      | true =>
          rw [ht] at hrun
          obtain ⟨τ, hτ, hfits⟩ := t.covers_tell ctx hσ ht
          rw [hτ]
          exact Or.inl (ih _ hfits (hg.note ht) hrun)
      | false =>
          rw [ht] at hrun
          obtain ⟨τ, hτ, hfits⟩ := t.covers_tell ctx hσ ht
          rw [hτ]
          exact Or.inr (ih _ hfits (hg.note ht) hrun)
  | group a ih =>
      obtain ⟨h, ha, hh⟩ := ih (hσ.alike d.alike_opened) (hg.opened .method) hrun
      exact ⟨_, by rw [weave, ha, Option.map_some], hg.group hh (hcall.run Draft.steady_reads hrun)⟩
  | enclose j a ih =>
      obtain ⟨h, ha, hh⟩ := ih (hσ.alike (d.alike_restarted j)) (hg.turned j) hrun
      exact ⟨_, by rw [weave, ha, Option.map_some], hh.enclosed⟩
  | node j a ih =>
      obtain ⟨h, ha, hh⟩ := ih (hσ.alike (d.alike_started j)) (hg.started j) hrun
      exact ⟨_, by rw [weave, ha, Option.map_some], hg.node hh (hcall.run Draft.steady_reads hrun)⟩
  | call p place => exact ⟨_, rfl, hg.called hcall hrun⟩
  | advance a ih =>
      have hstep := Draft.advance_eq hrun
      rw [run, hstep] at hrun ⊢
      exact ih hσ hg hrun
  | list close item ih =>
      refine ⟨_, rfl, ?_⟩
      split
      · next hcheck =>
          refine Draft.items_keep (P := fun e => ((g.take k σ).widened).Fits k e)
            (hobeys.later_run ctx item) (fun e he hok hfits => ?_) _ hσ.next.shrunk
            (hg.take hσ).widened hrun
          obtain ⟨h, hh, hdone⟩ := ih (fits_later he) hfits hok
          rw [hh, Option.all_some] at hcheck
          obtain ⟨hle, hcomma⟩ := (Bool.and_eq_true ..).mp hcheck
          refine ⟨hdone.mono hle, fun hsees => Footing.Fits.mono ?_ hcomma⟩
          have hfits := (fits_later ((hobeys.later_run ctx item e).ahead.trans he)).only
          rw [Draft.kind_of_sees hsees] at hfits
          exact hdone.take hfits
      · exact ⟨hg.aligned.reads (hcall.run Draft.steady_lined hrun hg.aligned.lined)
          (hcall.run Draft.steady_reads hrun), Outlook.fits_default _, nofun, nofun,
          LastPart.fits_any _, trivial⟩

/-- What a footing is found to be at least is true. -/
theorem Script.fits_of_weave {start d : Draft} {call : Call} (hcall : Trusted call) {ctx : Context}
    {s : Script} {k : NodeKind} {σ : Sight} {g h : Footing}
    (hs : ((s.weave k σ g).all fun f => f.le h) = true) (hσ : σ.Fits true start d)
    (hg : g.Fits k d) (hrun : (s.run call ctx d).problems = []) :
    h.Fits k (s.run call ctx d) := by
  obtain ⟨f, hf, hfits⟩ := s.covers_weave hcall ctx hσ hg hrun
  rw [hf] at hs
  exact hfits.mono hs

end FreeNames
