import FreeNames.Proofs.Regrouping

/-!
# FreeNames.Proofs.FreeOccurrences

Global references are the free occurrences of names.  The analysis first notes
for every scope which names it holds, wherever they are declared, and then looks
outwards from each reference.  Here the same is found from the root down: each
scope that is entered adds the names that it binds (`binds`), and a name that has
not been added is free (`freeOccurrences`).

A name can be declared after it is used and deeper than the scope it belongs to,
so entering a scope looks through all that is inside it for declarations, up to
the next scope of the same sort (`declared`).

Main statement: `references_eq_free`, for every text.
-/

namespace FreeNames

/-! ## the names that a scope binds -/

/-- What some nodes spell. -/
def words (ns : List Node) : List Text := ns.map Node.word

/-- Names that the targets of a variable declaration declare. -/
def Node.targetNames (n : Node) : List Text := words (n.targets.flatMap Node.boundNames)

/-- Names that a node declares for the nearest function scope around it. -/
def ownVars (n : Node) : List Text :=
  match n.kind, n.variableKind with
  | .varDecl, .varKind => n.targetNames
  | .functionDecl, _ => words n.ownName?.toList
  | _, _ => []

/-- Names that a node declares for the nearest block scope around it. -/
def ownLets (n : Node) : List Text :=
  match n.kind, n.variableKind with
  | .varDecl, .letKind | .varDecl, .constKind => n.targetNames
  | .classDecl, _ => words n.ownName?.toList
  | _, _ => []

/-- Names that a node imports. -/
def ownImports (n : Node) : List Text :=
  match n.kind with
  | .importDefaultSpecifier | .importSpecifier | .importNamespaceSpecifier =>
    words (n.children.filter fun c => c.kind = .name)
  | _ => []

section

variable (own : Node → List Text) (isScope : NodeKind → Bool)

mutual

/-- Names that the nodes of a tree declare, but for those behind a scope. -/
def declared (start : Nat) : Tree → List Text
  | .leaf _ => []
  | .node kind parts =>
    own ⟨start, kind, parts⟩ ++ if isScope kind then [] else declaredAll start parts

/-- Names that the nodes of trees in a row declare. -/
def declaredAll (start : Nat) : List Tree → List Text
  | [] => []
  | t :: ts => declared start t ++ declaredAll (start + t.size) ts

end

/-- Names that the nodes inside a node declare. -/
def Node.declared (n : Node) : List Text := declaredAll own isScope n.start n.parts

end

/-- Parameters and own name of a function, own name of a class expression. -/
def ownNames (n : Node) : List Text :=
  if n.kind.isFunction then
    words (n.parameterList?.toList.flatMap Node.boundNames) ++ words n.ownName?.toList
  else if n.kind = .classExpr then words n.ownName?.toList
  else []

/-- What a handler names the error, if a block is its body. -/
def handledNames (handler block : Node) : List Text :=
  if handler.kind = .catchClause ∧ handler.body? = some block then
    words (handler.handled?.toList.flatMap Node.boundNames)
  else []

/-- Names that a node binds for all that is inside it; `outer` is the node
directly around it. -/
def binds (outer : Option Node) (n : Node) : List Text :=
  ownNames n
    ++ (if n.kind.isFunctionScope then n.declared ownVars NodeKind.isFunctionScope else [])
    ++ (if n.kind.isBlockScope then n.declared ownLets NodeKind.isBlockScope else [])
    ++ outer.toList.flatMap (handledNames · n)

/-! ## free occurrences -/

/-- What has a meaning at a place: names, `arguments` and `this`. -/
structure Meanings where
  names : List Text
  hasArguments : Bool
  hasThis : Bool

namespace Meanings

/-- What has a meaning at the root: imported names. -/
def imported (root : Node) : Meanings where
  names := declared ownImports (fun _ => false) root.start (.node root.kind root.parts)
  hasArguments := false
  hasThis := false

/-- What has a meaning inside a node. -/
def enter (m : Meanings) (outer : Option Node) (n : Node) : Meanings where
  names := binds outer n ++ m.names
  hasArguments := n.kind.bindsArguments || m.hasArguments
  hasThis := n.kind.bindsThis || m.hasThis

end Meanings

/-- The free occurrence that a node is, where some names have a meaning. -/
def free? (m : Meanings) (s : Site) : Option Reference :=
  match s.node.kind with
  | .nameRef =>
    let name := s.node.word
    if name = "undefined".toList ∨ name ∈ m.names ∨
        (name = "arguments".toList ∧ m.hasArguments = true) then none
    else some ⟨name, s⟩
  | .thisExpr => if m.hasThis then none else some ⟨Globals.thisName, s⟩
  | _ => none

mutual

/-- Free occurrences in a tree. -/
def freeIn (m : Meanings) (above : List Node) (start : Nat) : Tree → List Reference
  | .leaf _ => []
  | .node kind parts =>
    let n : Node := ⟨start, kind, parts⟩
    (free? m ⟨n, above⟩).toList ++ freeInAll (m.enter above.head? n) (n :: above) start parts

/-- Free occurrences in trees in a row. -/
def freeInAll (m : Meanings) (above : List Node) (start : Nat) : List Tree → List Reference
  | [] => []
  | t :: ts => freeIn m above start t ++ freeInAll m above (start + t.size) ts

end

/-- Free occurrences in a program, in source order. -/
def freeOccurrences (root : Node) : List Reference :=
  freeIn (.imported root) [] root.start (.node root.kind root.parts)

/-! ## meanings from the inside out -/

namespace Meanings

/-- What has a meaning inside the nodes around a place, innermost first. -/
def inside (root : Node) : List Node → Meanings
  | [] => imported root
  | n :: above => (inside root above).enter above.head? n

theorem hasArguments_inside (root : Node) (above : List Node) :
    (inside root above).hasArguments = above.any fun n => n.kind.bindsArguments := by
  induction above with
  | nil => rfl
  | cons n above ih => simp [inside, enter, ih]

theorem hasThis_inside (root : Node) (above : List Node) :
    (inside root above).hasThis = above.any fun n => n.kind.bindsThis := by
  induction above with
  | nil => rfl
  | cons n above ih => simp [inside, enter, ih]

/-- A name has a meaning if it is imported or one of the nodes around binds it. -/
theorem mem_names_inside {root : Node} {above : List Node} {name : Text} :
    name ∈ (inside root above).names ↔
      name ∈ (imported root).names ∨
        ∃ inner n outer, above = inner ++ n :: outer ∧ name ∈ binds outer.head? n := by
  induction above with
  | nil => simp [inside]
  | cons m above ih =>
      rw [inside, enter, List.mem_append, ih]
      constructor
      · rintro (hm | himported | ⟨inner, n, outer, rfl, hn⟩)
        · exact Or.inr ⟨[], m, above, rfl, hm⟩
        · exact Or.inl himported
        · exact Or.inr ⟨m :: inner, n, outer, rfl, hn⟩
      · rintro (himported | ⟨inner, n, outer, heq, hn⟩)
        · exact Or.inr (Or.inl himported)
        · cases inner with
          | nil =>
              obtain ⟨rfl, rfl⟩ := List.cons.inj heq
              exact Or.inl hn
          | cons m' inner =>
              obtain ⟨rfl, rfl⟩ := List.cons.inj heq
              exact Or.inr (Or.inr ⟨inner, n, outer, rfl, hn⟩)

end Meanings

mutual

/-- Free occurrences can be told site by site. -/
theorem freeIn_eq (root : Node) (above : List Node) (start : Nat) : (t : Tree) →
    freeIn (.inside root above) above start t =
      (Site.within above start t).filterMap fun s => free? (.inside root s.above) s
  | .leaf _ => by simp [freeIn, Site.within]
  | .node k ps => by
      have hparts := freeInAll_eq root (⟨start, k, ps⟩ :: above) start ps
      rw [Meanings.inside] at hparts
      rw [freeIn, Site.within, hparts]
      cases hfree : free? (.inside root above) ⟨⟨start, k, ps⟩, above⟩ <;> simp [hfree]

theorem freeInAll_eq (root : Node) (above : List Node) (start : Nat) : (ts : List Tree) →
    freeInAll (.inside root above) above start ts =
      (Site.withinAll above start ts).filterMap fun s => free? (.inside root s.above) s
  | [] => by simp [freeInAll, Site.withinAll]
  | t :: ts => by
      rw [freeInAll, Site.withinAll, List.filterMap_append, freeIn_eq root above start t,
        freeInAll_eq root above _ ts]

end

/-! ## declarations and the sites that make them -/

namespace Site

/-- What is inside a node is inside it wherever the node stands. -/
theorem Reaches.transplant {n : Node} {outer : List Node} {s : Site}
    (h : Reaches ⟨n, outer⟩ s) (outer' : List Node) {inner : List Node}
    (habove : s.above = inner ++ n :: outer) :
    Reaches ⟨n, outer'⟩ ⟨s.node, inner ++ n :: outer'⟩ := by
  induction h generalizing inner with
  | refl =>
      have hlength := congrArg List.length habove
      simp at hlength
      omega
  | @child s c hs hc ih =>
      obtain ⟨m, hm, rfl⟩ := List.mem_map.mp hc
      by_cases hsn : s = ⟨n, outer⟩
      · subst hsn
        obtain rfl : inner = [] := by simpa using habove
        exact .child .refl (List.mem_map_of_mem hm)
      · obtain ⟨inner', hinner⟩ := hs.above_append hsn
        obtain rfl : s.node :: inner' = inner := by
          rw [hinner, ← List.cons_append] at habove
          exact List.append_cancel_right habove
        exact (ih hinner).child (List.mem_map_of_mem hm)

theorem above_of_mem_withinAll {above : List Node} {start : Nat} {ts : List Tree} {s : Site}
    (h : s ∈ withinAll above start ts) : ∃ inner, s.above = inner ++ above := by
  obtain ⟨n, -, hreaches⟩ := reaches_of_mem_withinAll ts h
  by_cases hs : s = ⟨n, above⟩
  · exact ⟨[], by simp [hs]⟩
  · obtain ⟨inner, hinner⟩ := hreaches.above_append hs
    exact ⟨inner ++ [n], by simp [hinner]⟩

end Site

/-- No scope stands between a site and some nodes further out. -/
def Unscoped (isScope : NodeKind → Bool) (above : List Node) (s : Site) : Prop :=
  ∃ inner, s.above = inner ++ above ∧ ∀ m ∈ inner, isScope m.kind = false

theorem Scopes.enclosing?_eq_some_iff {s : Site} {isScope : NodeKind → Bool} {n : Node} :
    enclosing? s isScope = some n ↔
      isScope n.kind = true ∧ ∃ outer, Unscoped isScope (n :: outer) s := by
  simp only [enclosing?, List.find?_eq_some_iff_append, Unscoped, Bool.not_eq_true']
  exact and_congr_right fun _ => exists_comm

section

variable {own : Node → List Text} {isScope : NodeKind → Bool} {name : Text}

theorem unscoped_cons_iff {n : Node} {above inner : List Node} {s : Site}
    (h : s.above = inner ++ n :: above) :
    Unscoped isScope above s ↔ isScope n.kind = false ∧ Unscoped isScope (n :: above) s := by
  constructor
  · rintro ⟨inner', heq, hinner⟩
    obtain rfl : inner ++ [n] = inner' := by
      rw [h, List.append_cons] at heq
      exact List.append_cancel_right heq
    exact ⟨hinner n (by simp), inner, h, fun m hm => hinner m (by simp [hm])⟩
  · rintro ⟨hn, inner', heq, hinner⟩
    refine ⟨inner' ++ [n], by simp [heq], fun m hm => ?_⟩
    rcases List.mem_append.mp hm with hm | hm
    · exact hinner m hm
    · rw [List.mem_singleton.mp hm]
      exact hn

mutual

theorem mem_declared_iff (above : List Node) {start : Nat} : (t : Tree) →
    (name ∈ declared own isScope start t ↔
      ∃ s ∈ Site.within above start t, Unscoped isScope above s ∧ name ∈ own s.node)
  | .leaf _ => by simp [declared, Site.within]
  | .node k ps => by
      have hself : Unscoped isScope above ⟨⟨start, k, ps⟩, above⟩ := ⟨[], rfl, by simp⟩
      have hinside : (∃ s ∈ Site.withinAll (⟨start, k, ps⟩ :: above) start ps,
            Unscoped isScope above s ∧ name ∈ own s.node) ↔
          isScope k = false ∧ name ∈ declaredAll own isScope start ps := by
        rw [mem_declaredAll_iff (⟨start, k, ps⟩ :: above) ps, ← exists_and_left]
        refine exists_congr fun s => ?_
        constructor
        · rintro ⟨hs, hun, hname⟩
          obtain ⟨inner, hinner⟩ := Site.above_of_mem_withinAll hs
          obtain ⟨hk, hun⟩ := (unscoped_cons_iff hinner).mp hun
          exact ⟨hk, hs, hun, hname⟩
        · rintro ⟨hk, hs, hun, hname⟩
          obtain ⟨inner, hinner⟩ := Site.above_of_mem_withinAll hs
          exact ⟨hs, (unscoped_cons_iff hinner).mpr ⟨hk, hun⟩, hname⟩
      simp only [declared, Site.within, List.mem_append, List.mem_cons, or_and_right, exists_or,
        exists_eq_left, hself, true_and, hinside]
      cases isScope k <;> simp

theorem mem_declaredAll_iff (above : List Node) {start : Nat} : (ts : List Tree) →
    (name ∈ declaredAll own isScope start ts ↔
      ∃ s ∈ Site.withinAll above start ts, Unscoped isScope above s ∧ name ∈ own s.node)
  | [] => by simp [declaredAll, Site.withinAll]
  | t :: ts => by
      simp only [declaredAll, Site.withinAll, List.mem_append, mem_declared_iff above t,
        mem_declaredAll_iff above ts, or_and_right, exists_or]

end

/-- What is declared inside a node is declared by a site inside it with no scope
between the two. -/
theorem Node.mem_declared_iff {n : Node} (outer : List Node) :
    name ∈ n.declared own isScope ↔
      ∃ s, Site.Reaches ⟨n, outer⟩ s ∧ Unscoped isScope (n :: outer) s ∧ name ∈ own s.node := by
  rw [Node.declared, mem_declaredAll_iff (n :: outer)]
  refine exists_congr fun s => ?_
  rw [← Site.mem_descendants_iff, Site.descendants, List.mem_cons]
  constructor
  · rintro ⟨hs, h⟩
    exact ⟨Or.inr hs, h⟩
  · rintro ⟨rfl | hs, h⟩
    · obtain ⟨⟨inner, hinner, -⟩, -⟩ := h
      have hlength := congrArg List.length hinner
      simp at hlength
      omega
    · exact ⟨hs, h⟩

end

/-! ## what a scope holds is what it binds -/

theorem mem_binds_iff {outer : Option Node} {n : Node} {name : Text} :
    name ∈ binds outer n ↔
      name ∈ ownNames n ∨
      (n.kind.isFunctionScope = true ∧ name ∈ n.declared ownVars NodeKind.isFunctionScope) ∨
      (n.kind.isBlockScope = true ∧ name ∈ n.declared ownLets NodeKind.isBlockScope) ∨
      ∃ handler, outer = some handler ∧ name ∈ handledNames handler n := by
  cases outer <;> simp [binds]

namespace Scopes

theorem mem_held_iff {scope : Option Node} {names : List Node} {n : Node} {name : Text} :
    (n, name) ∈ held scope names ↔ scope = some n ∧ name ∈ words names := by
  cases scope with
  | none => simp [held]
  | some scope =>
      simp only [held, words, List.mem_map, Prod.mk.injEq, Option.some.injEq]
      constructor
      · rintro ⟨m, hm, rfl, rfl⟩
        exact ⟨rfl, m, hm, rfl⟩
      · rintro ⟨rfl, m, hm, rfl⟩
        exact ⟨m, hm, rfl, rfl⟩

theorem mem_ofVariables_iff {n : Node} {s : Site} {name : Text} (hk : s.node.kind = .varDecl) :
    (n, name) ∈ ofVariables s ↔
      (enclosing? s NodeKind.isFunctionScope = some n ∧ name ∈ ownVars s.node) ∨
      (enclosing? s NodeKind.isBlockScope = some n ∧ name ∈ ownLets s.node) := by
  cases hv : s.node.variableKind <;>
    simp [ofVariables, mem_held_iff, ownVars, ownLets, Node.targetNames, hk, hv]

/-- What a site declares, and for which scope. -/
theorem mem_ofSite_iff {root n : Node} {s : Site} {name : Text} :
    (n, name) ∈ ofSite root s ↔
      (s.node = n ∧ name ∈ ownNames s.node) ∨
      (enclosing? s NodeKind.isFunctionScope = some n ∧ name ∈ ownVars s.node) ∨
      (enclosing? s NodeKind.isBlockScope = some n ∧ name ∈ ownLets s.node) ∨
      name ∈ handledNames s.node n ∨
      (root = n ∧ name ∈ ownImports s.node) := by
  cases hk : s.node.kind with
  | varDecl =>
      simp [ofSite, mem_ofVariables_iff hk, ownNames, handledNames, ownImports,
        NodeKind.isFunction, hk]
  | _ =>
      simp [ofSite, ofFunction, ofClass, ofHandler, mem_held_iff, ownNames, ownVars, ownLets,
        handledNames, ownImports, NodeKind.isFunction, hk, and_or_left, or_assoc]

theorem declares_build_iff {root : Site} {n : Node} {name : Text} :
    (build root).declares n name = true ↔ ∃ s, root.Reaches s ∧ (n, name) ∈ ofSite root.node s := by
  simp only [declares, build, List.any_eq_true, List.mem_flatMap, Site.mem_descendants_iff,
    Bool.and_eq_true, decide_eq_true_eq]
  constructor
  · rintro ⟨⟨_, _⟩, ⟨s, hs, hmem⟩, rfl, rfl⟩
    exact ⟨s, hs, hmem⟩
  · rintro ⟨s, hs, hmem⟩
    exact ⟨(n, name), ⟨s, hs, hmem⟩, rfl, rfl⟩

end Scopes

theorem mem_children_of_mem_handledNames {handler block : Node} {name : Text}
    (h : name ∈ handledNames handler block) : block ∈ handler.children := by
  unfold handledNames at h
  split at h
  · next hbody => exact List.mem_of_find?_eq_some hbody.2
  · simp at h

section

variable {root s : Site} {name : Text}

theorem mem_imported_iff (htop : root.above = []) :
    name ∈ (Meanings.imported root.node).names ↔
      ∃ d, root.Reaches d ∧ name ∈ ownImports d.node := by
  rw [Meanings.imported, mem_declared_iff [], ← htop, ← Site.descendants_eq_within]
  refine exists_congr fun d => ?_
  rw [Site.mem_descendants_iff]
  have hunscoped : Unscoped (fun _ => false) root.above d := ⟨d.above, by simp [htop], by simp⟩
  simp [hunscoped]

/-- What a site declares for the nearest scope around it is declared inside that
scope. -/
theorem mem_declared_of_enclosing {own : Node → List Text} {isScope : NodeKind → Bool} {n : Node}
    (htop : root.above = []) (hs : root.Reaches s)
    (henclosing : Scopes.enclosing? s isScope = some n) (hname : name ∈ own s.node) :
    isScope n.kind = true ∧ name ∈ n.declared own isScope := by
  obtain ⟨hscope, outer, hunscoped⟩ := Scopes.enclosing?_eq_some_iff.mp henclosing
  obtain ⟨inner, habove, -⟩ := id hunscoped
  have hinside := (hs.of_above htop habove).2
  exact ⟨hscope, (Node.mem_declared_iff outer).mpr ⟨s, hinside, hunscoped, hname⟩⟩

/-- What is declared inside a scope is declared by a site with no nearer scope
around it. -/
theorem exists_enclosing_of_mem_declared {own : Node → List Text} {isScope : NodeKind → Bool}
    {n : Node} {outer : List Node} (hn : root.Reaches ⟨n, outer⟩) (hscope : isScope n.kind = true)
    (hname : name ∈ n.declared own isScope) :
    ∃ d, root.Reaches d ∧ Scopes.enclosing? d isScope = some n ∧ name ∈ own d.node := by
  obtain ⟨d, hd, hunscoped, hown⟩ := (Node.mem_declared_iff outer).mp hname
  exact ⟨d, hn.trans hd, Scopes.enclosing?_eq_some_iff.mpr ⟨hscope, outer, hunscoped⟩, hown⟩

variable {o : Nat} {t : Token}

/-- A node around a token stands in one place. -/
theorem Site.Reaches.outer_eq (htop : root.above = [])
    (hne : ∀ t ∈ Tree.tokensAll root.node.parts, t.text ≠ []) (hs : root.Reaches s)
    (hholds : s.node.Holds o t) {n : Node} {inner outer outer' : List Node}
    (habove : s.above = inner ++ n :: outer) (h : root.Reaches ⟨n, outer'⟩) : outer' = outer := by
  have hinside := (hs.of_above htop habove).2
  have hcopy : root.Reaches ⟨s.node, inner ++ n :: outer'⟩ :=
    h.trans (hinside.transplant outer' habove)
  have heq := Site.eq_of_holds hne hs hcopy hholds hholds
  rw [heq] at habove
  exact (List.cons.inj (List.append_cancel_left habove)).2

/-- A scope around a token holds the names that it binds, and the root holds the
imported names too. -/
theorem declares_iff_mem_binds (htop : root.above = [])
    (hne : ∀ t ∈ Tree.tokensAll root.node.parts, t.text ≠ []) (hs : root.Reaches s)
    (hholds : s.node.Holds o t) {n : Node} {inner outer : List Node}
    (habove : s.above = inner ++ n :: outer) :
    (Scopes.build root).declares n name = true ↔
      name ∈ binds outer.head? n ∨
        (root.node = n ∧ name ∈ (Meanings.imported root.node).names) := by
  have hn : root.Reaches ⟨n, outer⟩ := (hs.of_above htop habove).1
  rw [Scopes.declares_build_iff, mem_binds_iff, mem_imported_iff htop]
  constructor
  · rintro ⟨d, hd, hmem⟩
    rcases Scopes.mem_ofSite_iff.mp hmem with
      ⟨rfl, hown⟩ | ⟨hscope, hvar⟩ | ⟨hscope, hlet⟩ | hhandled | ⟨hroot, himport⟩
    · exact Or.inl (Or.inl hown)
    · exact Or.inl (Or.inr (Or.inl (mem_declared_of_enclosing htop hd hscope hvar)))
    · exact Or.inl (Or.inr (Or.inr (Or.inl (mem_declared_of_enclosing htop hd hscope hlet))))
    · -- the block is around the token, so the handler is directly around the block
      have hblock : root.Reaches ⟨n, d.node :: d.above⟩ :=
        hd.child (List.mem_map_of_mem (mem_children_of_mem_handledNames hhandled))
      rw [← hs.outer_eq htop hne hholds habove hblock]
      exact Or.inl (Or.inr (Or.inr (Or.inr ⟨d.node, rfl, hhandled⟩)))
    · exact Or.inr ⟨hroot, d, hd, himport⟩
  · rintro ((hown | ⟨hscope, hvar⟩ | ⟨hscope, hlet⟩ | ⟨handler, hhead, hhandled⟩) |
      ⟨hroot, d, hd, himport⟩)
    · exact ⟨_, hn, Scopes.mem_ofSite_iff.mpr (Or.inl ⟨rfl, hown⟩)⟩
    · obtain ⟨d, hd, hd'⟩ := exists_enclosing_of_mem_declared hn hscope hvar
      exact ⟨d, hd, Scopes.mem_ofSite_iff.mpr (Or.inr (Or.inl hd'))⟩
    · obtain ⟨d, hd, hd'⟩ := exists_enclosing_of_mem_declared hn hscope hlet
      exact ⟨d, hd, Scopes.mem_ofSite_iff.mpr (Or.inr (Or.inr (Or.inl hd')))⟩
    · obtain ⟨further, rfl⟩ := List.head?_eq_some_iff.mp hhead
      have hhandler := (hn.of_above htop (List.nil_append _).symm).1
      exact ⟨_, hhandler, Scopes.mem_ofSite_iff.mpr (Or.inr (Or.inr (Or.inr (Or.inl hhandled))))⟩
    · exact ⟨d, hd, Scopes.mem_ofSite_iff.mpr (Or.inr (Or.inr (Or.inr (Or.inr ⟨hroot, himport⟩))))⟩

/-- Around a token, a name has a meaning if a scope holds it. -/
theorem mem_names_iff_declares (htop : root.above = [])
    (hne : ∀ t ∈ Tree.tokensAll root.node.parts, t.text ≠ []) (hs : root.Reaches s)
    (hinner : s ≠ root) (hholds : s.node.Holds o t) :
    name ∈ (Meanings.inside root.node s.above).names ↔
      ∃ n ∈ s.above, (Scopes.build root).declares n name = true := by
  rw [Meanings.mem_names_inside]
  constructor
  · rintro (himported | ⟨inner, n, outer, habove, hbinds⟩)
    · obtain ⟨inner, habove⟩ := hs.above_append hinner
      refine ⟨root.node, by simp [habove], ?_⟩
      exact (declares_iff_mem_binds htop hne hs hholds habove).mpr (Or.inr ⟨rfl, himported⟩)
    · refine ⟨n, by simp [habove], ?_⟩
      exact (declares_iff_mem_binds htop hne hs hholds habove).mpr (Or.inl hbinds)
  · rintro ⟨n, hn, hdeclares⟩
    obtain ⟨inner, outer, habove⟩ := List.append_of_mem hn
    rcases (declares_iff_mem_binds htop hne hs hholds habove).mp hdeclares with
      hbinds | ⟨-, himported⟩
    · exact Or.inr ⟨inner, n, outer, habove, hbinds⟩
    · exact Or.inl himported

theorem any_gives_iff {scopes : Scopes} {above : List Node} :
    above.any (Globals.gives scopes name) = true ↔
      (∃ n ∈ above, scopes.declares n name = true) ∨
        (name = "arguments".toList ∧ ∃ n ∈ above, n.kind.bindsArguments = true) := by
  simp only [List.any_eq_true, Globals.gives, Bool.or_eq_true, Bool.and_eq_true, decide_eq_true_eq]
  constructor
  · rintro ⟨n, hn, ⟨harguments, hk⟩ | hdeclares⟩
    · exact Or.inr ⟨harguments, n, hn, hk⟩
    · exact Or.inl ⟨n, hn, hdeclares⟩
  · rintro (⟨n, hn, hdeclares⟩ | ⟨harguments, n, hn, hk⟩)
    · exact ⟨n, hn, Or.inr hdeclares⟩
    · exact ⟨n, hn, Or.inl ⟨harguments, hk⟩⟩

end

/-! ## the two searches agree -/

/-- Looking outwards from a site of a parsed text finds what has been carried
down to it. -/
theorem free?_eq_resolve? {source : SourceType} {text : Text} {s : Site}
    (hs : (parse source text).root.Reaches s) :
    free? (.inside (parse source text).root.node s.above) s =
      Globals.resolve? (Scopes.build (parse source text).root) s := by
  cases hk : s.node.kind with
  | nameRef =>
      have hne : ∀ t ∈ Tree.tokensAll (parse source text).root.node.parts, t.text ≠ [] := by
        rw [tokensAll_root]
        exact fun t ht => text_ne_nil_of_mem_tokenize ht
      obtain ⟨t, hparts, -⟩ := hs.within.exists_token (by rw [hk]; rfl)
      have hholds : s.node.Holds s.node.start t := ⟨[], [], hparts, by simp [Tree.sizeAll]⟩
      have hinner : s ≠ (parse source text).root := by
        rintro rfl
        cases hk
      have hmeaning (name : Text) :
          name ∈ (Meanings.inside (parse source text).root.node s.above).names ↔ _ :=
        mem_names_iff_declares rfl hne hs hinner hholds
      rw [Globals.resolve?_of_nameRef hk]
      simp only [free?, hk, hmeaning, Bool.or_eq_true, decide_eq_true_eq, any_gives_iff,
        Meanings.hasArguments_inside]
      simp only [List.any_eq_true]
  | thisExpr => simp [free?, Globals.resolve?, hk, Meanings.hasThis_inside]
  | _ => simp [free?, Globals.resolve?, hk]

/-- Looking outwards from every node finds the free occurrences. -/
theorem filterMap_resolve?_descendants (source : SourceType) (text : Text) :
    (parse source text).root.descendants.filterMap
        (Globals.resolve? (Scopes.build (parse source text).root)) =
      freeOccurrences (parse source text).root.node := by
  have hfree := freeIn_eq (parse source text).root.node [] 0
    (.node .program (parse source text).parts)
  rw [freeOccurrences, ← Meanings.inside]
  refine Eq.trans (List.filterMap_congr fun s hs => ?_) hfree.symm
  exact (free?_eq_resolve? (Site.mem_descendants_iff.mp hs)).symm

/-- The references of a parsed text, broken or not, are its free occurrences: each
in the group of its name, and in source order there. -/
theorem references_eq_free (source : SourceType) (text : Text) :
    ∃ groups, globalsAt (parse source text).root = .ok groups ∧
      (∀ r, (∃ g ∈ groups, r ∈ g.references) ↔
        r ∈ freeOccurrences (parse source text).root.node) ∧
      ∀ g ∈ groups, g.references =
        (freeOccurrences (parse source text).root.node).filter fun r => r.name = g.name := by
  refine ⟨_, rfl, ?_, ?_⟩
  · intro r
    rw [Globals.collect_eq, filterMap_resolve?_descendants]
    simp only [List.mem_map, Sort.mem_sort, List.mem_eraseDups, Globals.gather]
    constructor
    · rintro ⟨g, ⟨name, -, rfl⟩, hr⟩
      exact List.mem_of_mem_filter hr
    · intro hr
      refine ⟨_, ⟨r.name, ⟨r, hr, rfl⟩, rfl⟩, ?_⟩
      exact List.mem_filter.mpr ⟨hr, decide_eq_true rfl⟩
  · intro g hg
    rw [Globals.collect_eq, filterMap_resolve?_descendants] at hg
    obtain ⟨name, -, rfl⟩ := List.mem_map.mp hg
    rfl

end FreeNames
