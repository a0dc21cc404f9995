import FreeNames.Proofs.Tally

/-!
# FreeNames.Proofs.Layouts

Which nodes stand directly inside which.  Nodes fall into families by what they are as
parts of others, and `NodeKind.layouts` lists what each kind of node is made of: names
and patterns stand in declarations only, each at its place, and the operands of a
binary operator are no assignments, conditions, sequences, `yield`s or arrow functions.

Main statement: `laid_root`, in a text without problems every node has one of its
layouts.
-/

namespace FreeNames

/-! ## layouts -/

/-- What nodes are as parts of others. -/
inductive Family where
  | name
  | pattern
  /-- A target with a default. -/
  | withDefault
  | rest
  /-- A property of a pattern. -/
  | field
  | parameters
  | declarator
  | block
  /-- Expressions that bind tighter than binary operators. -/
  | tight
  | operation
  /-- Expressions that bind less tightly. -/
  | loose
  | other
deriving DecidableEq

def NodeKind.family : NodeKind → Family
  | .name => .name
  | .objectPattern | .arrayPattern => .pattern
  | .assignPattern => .withDefault
  | .restPattern => .rest
  | .objectPatternProp => .field
  | .paramList => .parameters
  | .varDeclarator => .declarator
  | .blockStmt => .block
  | .binaryExpr => .operation
  | .assignExpr | .conditionalExpr | .sequenceExpr | .yieldExpr | .arrowFunction => .loose
  | k => if k.isExpression then .tight else .other

namespace Family

def operands : List Family := [.tight, .operation]

def expressions : List Family := [.tight, .operation, .loose]

def targets : List Family := [.name, .pattern]

def elements : List Family := [.name, .pattern, .withDefault]

/-- What stands where nothing is declared. -/
def plain : List Family := [.block, .tight, .operation, .loose, .other]

end Family

/-- The nodes of a row, by family. -/
inductive Layout where
  /-- One node for each slot. -/
  | row (slots : List (List Family))
  /-- Any number of nodes. -/
  | among (fs : List Family)
deriving DecidableEq

open Family in
/-- What the nodes directly inside a node can be. -/
def NodeKind.layouts : NodeKind → List Layout
  | .varDecl => [.among [.declarator]]
  | .varDeclarator => [.row [targets], .row [targets, expressions]]
  | .objectPattern => [.among [.field, .rest]]
  | .objectPatternProp => [.row [elements], .row [[.other], elements]]
  | .arrayPattern | .paramList => [.among (.rest :: elements)]
  | .assignPattern => [.row [targets, expressions]]
  | .restPattern => [.row [targets]]
  | .catchClause => [.row [[.block]], .row [targets, [.block]]]
  | .functionDecl | .functionExpr =>
    [.row [[.parameters], [.block]], .row [[.name], [.parameters], [.block]]]
  | .arrowFunction => [.row [[.parameters], .block :: expressions]]
  | .method => [.row [[.other], [.parameters], [.block]]]
  | .classDecl | .classExpr =>
    [.row [[.other]], .row [[.other], [.other]], .row [[.name], [.other]],
      .row [[.name], [.other], [.other]]]
  | .importDefaultSpecifier | .importNamespaceSpecifier => [.row [[.name]]]
  | .importSpecifier => [.row [[.name]], .row [[.other], [.name]]]
  | .binaryExpr => [.row [operands, operands]]
  | _ => [.among plain]

/-! ## what layouts say -/

/-- The kinds of the nodes in a row. -/
def Tree.kinds (ts : List Tree) : List NodeKind :=
  ts.filterMap fun
    | .leaf _ => none
    | .node k _ => some k

namespace Tree

theorem kinds_append (ts us : List Tree) : kinds (ts ++ us) = kinds ts ++ kinds us :=
  List.filterMap_append

theorem kinds_leaf (t : Token) : kinds [.leaf t] = [] := rfl

theorem kinds_solids (ts : List Tree) : kinds (solids ts) = kinds ts := by
  induction ts with
  | nil => rfl
  | cons t ts ih =>
      cases t with
      | node k parts => simpa [kinds] using ih
      | leaf u =>
          cases hu : u.isTrivia with
          | true =>
              rw [solids, List.filter_cons_of_neg (by simp [isSolid, hu])]
              exact ih
          | false =>
              rw [solids_leaf hu]
              exact ih

end Tree

theorem Node.map_kind_among (start : Nat) (ts : List Tree) :
    (among start ts).map Node.kind = Tree.kinds ts := by
  induction ts generalizing start with
  | nil => rfl
  | cons t ts ih =>
      cases t with
      | leaf u => exact ih _
      | node k parts => exact congrArg (k :: ·) (ih _)

namespace Layout

/-- The nodes of a row are as a layout says. -/
def Fits : Layout → List NodeKind → Prop
  | row slots, ks => List.Forall₂ (fun fs k => k.family ∈ fs) slots ks
  | among fs, ks => ∀ k ∈ ks, k.family ∈ fs

/-- One layout after another. -/
def append : Layout → Layout → Layout
  | row r, row s => row (r ++ s)
  | row r, among fs => among (r.flatten ++ fs)
  | among fs, row s => among (fs ++ s.flatten)
  | among fs, among gs => among (fs ++ gs)

def slotsLe : List (List Family) → List (List Family) → Bool
  | [], [] => true
  | fs :: r, gs :: s => fs.all gs.contains && slotsLe r s
  | _, _ => false

/-- All that the first allows the second does. -/
def le : Layout → Layout → Bool
  | row r, row s => slotsLe r s
  | row r, among fs => r.all fun slot => slot.all fs.contains
  | among fs, among gs => fs.all gs.contains
  | among _, row _ => false

variable {l m : Layout} {ks js : List NodeKind}

theorem Fits.among_flatten {r : List (List Family)} (h : (row r).Fits ks) :
    (among r.flatten).Fits ks := by
  change List.Forall₂ _ r ks at h
  induction h with
  | nil => exact nofun
  | cons hk _ ih =>
      intro j hj
      rw [List.flatten_cons, List.mem_append]
      rcases List.mem_cons.mp hj with rfl | hj
      · exact Or.inl hk
      · exact Or.inr (ih j hj)

theorem Fits.append_among {fs gs : List Family} (hk : (among fs).Fits ks)
    (hj : (among gs).Fits js) : (among (fs ++ gs)).Fits (ks ++ js) := by
  intro k hmem
  rcases List.mem_append.mp hmem with h | h
  · exact List.mem_append_left _ (hk k h)
  · exact List.mem_append_right _ (hj k h)

theorem Fits.append (hl : l.Fits ks) (hm : m.Fits js) : (l.append m).Fits (ks ++ js) := by
  cases l with
  | row r =>
      cases m with
      | row s => exact List.rel_append hl hm
      | among gs => exact hl.among_flatten.append_among hm
  | among fs =>
      cases m with
      | row s => exact Fits.append_among hl hm.among_flatten
      | among gs => exact Fits.append_among hl hm

theorem mem_of_all_contains {fs gs : List Family} (h : fs.all gs.contains = true) {f : Family}
    (hf : f ∈ fs) : f ∈ gs := by
  simpa using List.all_eq_true.mp h f hf

theorem fits_of_slotsLe {r s : List (List Family)} (hle : slotsLe r s = true)
    (h : (row r).Fits ks) : (row s).Fits ks := by
  induction r generalizing s ks with
  | nil =>
      cases s with
      | nil => exact h
      | cons gs s => cases hle
  | cons fs r ih =>
      cases s with
      | nil => cases hle
      | cons gs s =>
          obtain ⟨hslot, hrest⟩ := (Bool.and_eq_true ..).mp hle
          cases h with
          | cons hk hks => exact .cons (mem_of_all_contains hslot hk) (ih hrest hks)

theorem Fits.mono (hl : l.Fits ks) (hle : l.le m = true) : m.Fits ks := by
  cases l with
  | row r =>
      cases m with
      | row s => exact fits_of_slotsLe hle hl
      | among gs =>
          intro k hk
          obtain ⟨slot, hslot, hfamily⟩ := List.mem_flatten.mp (hl.among_flatten k hk)
          exact mem_of_all_contains (List.all_eq_true.mp hle slot hslot) hfamily
  | among fs =>
      cases m with
      | row s => cases hle
      | among gs => exact fun k hk => mem_of_all_contains hle (hl k hk)

/-! ## layouts through the scripts -/

/-- Each of some layouts is one of others. -/
def allLe (b c : List Layout) : Bool := b.all fun l => c.any l.le

open Family in
/-- The nodes that a production adds, or makes of those it goes on after. -/
def gives : Production → List Layout
  | .block => [.row [[.block]]]
  | .statement => [.row [[.block, .other]]]
  | .statements | .clauseBody => [.among [.block, .other]]
  | .clauses | .objectItems | .members => [.among [.other]]
  | .declarators => [.among [.declarator]]
  | .expression | .assignment | .conditional => [.row [expressions]]
  | .commaTail | .templateParts => [.among expressions]
  | .binary _ | .binaryTail _ => [.row [operands]]
  | .unary | .operand | .newExpr | .suffixes _ => [.row [[.tight]]]
  | .arguments | .arrayItems => [.among (.other :: expressions)]
  | .bindingTarget => [.row [targets]]
  | .bindingElement => [.row [elements]]
  | .patternFields => [.among [.field, .rest]]
  | .patternItems | .parameters => [.among (.rest :: elements)]

/-- The layouts that the nodes of a row can have. -/
def tally : Tally (List Layout) where
  empty := [.row []]
  add b c := b.flatMap fun l => c.map l.append
  take _ b := some b
  wrap k _ := [.row [[k.family]]]
  closes k b := allLe b k.layouts
  join b c := some (b ++ c.filter fun l => !b.any l.le)
  le := allLe
  widen _ := [.among Family.plain]
  needs := gives
  gives := gives

/-- The nodes of a row have one of some layouts. -/
def Means (b : List Layout) (ts : List Tree) : Prop := ∃ l ∈ b, l.Fits (Tree.kinds ts)

/-- A node has one of its layouts. -/
def Laid (k : NodeKind) (parts : List Tree) : Prop := Means k.layouts parts

theorem Means.mono {b c : List Layout} {ts : List Tree} (h : Means b ts) (hle : allLe b c = true) :
    Means c ts := by
  obtain ⟨l, hl, hfits⟩ := h
  obtain ⟨m, hm, hlm⟩ := List.any_eq_true.mp (List.all_eq_true.mp hle l hl)
  exact ⟨m, hm, hfits.mono hlm⟩

theorem lawful_tally : tally.Lawful Means Laid where
  empty := ⟨.row [], List.mem_singleton_self _, .nil⟩
  add hb hc := by
    obtain ⟨l, hl, hfits⟩ := hb
    obtain ⟨m, hm, hfits'⟩ := hc
    refine ⟨l.append m, List.mem_flatMap.mpr ⟨l, hl, List.mem_map_of_mem hm⟩, ?_⟩
    rw [Tree.kinds_append]
    exact hfits.append hfits'
  take _ _ _ htake hb := by
    obtain rfl := Option.some.inj htake
    rw [Means, Tree.kinds_append, Tree.kinds_leaf, List.append_nil]
    exact hb
  wrap k _ _ := ⟨_, List.mem_singleton_self _, .cons (List.mem_singleton_self _) .nil⟩
  closes hcloses hb := by
    rw [Means, Tree.kinds_solids] at hb
    exact Means.mono hb hcloses
  join {b c e ts} hjoin hb := by
    obtain rfl := Option.some.inj hjoin
    rcases hb with ⟨l, hl, hfits⟩ | ⟨l, hl, hfits⟩
    · exact ⟨l, List.mem_append_left _ hl, hfits⟩
    · -- a layout that is left out is one of those that are there
      cases hany : b.any l.le with
      | true =>
          obtain ⟨m, hm, hle⟩ := List.any_eq_true.mp hany
          exact ⟨m, List.mem_append_left _ hm, hfits.mono hle⟩
      | false =>
          exact ⟨l, List.mem_append_right _ (List.mem_filter.mpr ⟨hl, by simp [hany]⟩), hfits⟩
  mono hle hb := hb.mono hle

end Layout

/-- What is read of a chain of operators does not depend on how tightly they bind. -/
theorem Script.read_binaryTail {α : Type} {R : Reading α}
    (h : ∀ m n, R.called (.binaryTail m) = R.called (.binaryTail n)) (m n : Nat) (σ : Sight)
    (g : α) : (binaryTail m).read R σ g = (binaryTail n).read R σ g := by
  have hseq (a : Script) (τ : Sight) (g : α) :
      (a ++ call (.binaryTail m)).read R τ g = (a ++ call (.binaryTail n)).read R τ g := by
    change (a.read R τ g).bind _ = (a.read R τ g).bind _
    simp [h m n]
  unfold binaryTail
  rw [read, read]
  congr 2
  funext k
  cases Grammar.precedence? {} k with
  | none => rfl
  | some p => simp only [read, hseq, Test.tell]

set_option maxRecDepth 10000 in
theorem Production.read_layouts (p : Production) :
    ((p.script.read Layout.tally.reading p.entry (Layout.tally.reading.needs p)).all fun g =>
      Layout.tally.reading.le g (Layout.tally.reading.gives p)) = true := by
  cases p with
  | binary least => rfl
  | binaryTail least =>
      rw [script, Script.read_binaryTail (fun _ _ => rfl) least 0]
      change (((Script.binaryTail 0).read Layout.tally.reading {}
        (Layout.tally.reading.needs (.binaryTail 0))).all fun g =>
          Layout.tally.reading.le g (Layout.tally.reading.gives (.binaryTail 0))) = true
      decide +kernel
  | suffixes calls => cases calls <;> decide +kernel
  | _ => decide +kernel

theorem holds_layouts :
    Layout.tally.reading.Holds (Count.Fits Layout.Means Layout.Laid) grammar :=
  Layout.lawful_tally.sound.holds_grammar .plain Production.read_layouts

set_option maxRecDepth 10000 in
theorem read_layouts_moduleItem (source : SourceType) :
    (((Spelling.plain.item source).read Layout.tally.reading {}
      ⟨true, some [.among Family.plain], true⟩).all fun g =>
        Layout.tally.countLe g ⟨true, some [.among Family.plain], true⟩) = true := by
  cases source <;> decide

/-- In a text without problems every node is made of what it can be made of. -/
theorem laid_root {source : SourceType} {text : Text} (h : (parse source text).problems = []) :
    Tree.All Layout.Laid (parse source text).tree := by
  obtain ⟨hall, hmeans⟩ := Layout.lawful_tally.ofText (S := .plain) holds_layouts
    (read_layouts_moduleItem source) rfl h
  refine .node ?_ hall
  rw [Layout.Means, Tree.kinds_solids] at hmeans
  exact hmeans

end FreeNames
