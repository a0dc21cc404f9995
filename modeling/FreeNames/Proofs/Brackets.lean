import FreeNames.Proofs.Spelling
import FreeNames.Proofs.Tally

/-!
# FreeNames.Proofs.Brackets

Brackets match.  `Dyck` are the words in which each bracket that opens is closed by one
of its own shape, with such a word between the two.  What a script has gathered is a
word with some brackets still open (`Opens`); tokens open and close brackets, and
nodes and productions leave none open.

Main statement: `brackets_nested`, in a text without problems, and below each node of
its tree, the brackets are a properly nested word.
-/

namespace FreeNames

/-! ## words of brackets -/

/-- The shapes of brackets. -/
inductive Bracket where
  | round
  | curly
  | square
deriving DecidableEq

/-- A bracket that opens or closes. -/
inductive Mark where
  | opening (b : Bracket)
  | closing (b : Bracket)
deriving DecidableEq

/-- The bracket that a token is. -/
def Mark.ofKind? : TokenKind → Option Mark
  | .punct .lParen => some (.opening .round)
  | .punct .rParen => some (.closing .round)
  | .punct .lBrace => some (.opening .curly)
  | .punct .rBrace => some (.closing .curly)
  | .punct .lBracket => some (.opening .square)
  | .punct .rBracket => some (.closing .square)
  | _ => none

/-- The brackets among tokens. -/
def brackets (ts : List Token) : List Mark := ts.filterMap fun t => Mark.ofKind? t.kind

/-- Properly nested brackets: each that opens is closed by one of its shape. -/
inductive Dyck : List Mark → Prop
  | nil : Dyck []
  | pair (b : Bracket) {inner rest : List Mark} (hinner : Dyck inner) (hrest : Dyck rest) :
    Dyck (.opening b :: inner ++ .closing b :: rest)

theorem Dyck.append {ws vs : List Mark} (hw : Dyck ws) (hv : Dyck vs) : Dyck (ws ++ vs) := by
  induction hw with
  | nil => exact hv
  | pair b hinner _ _ ih =>
      rw [List.append_assoc, List.cons_append]
      exact .pair b hinner ih

/-- A word that leaves brackets open, the innermost first. -/
def Opens : List Bracket → List Mark → Prop
  | [], ws => Dyck ws
  | b :: bs, ws => ∃ outer inner, ws = outer ++ .opening b :: inner ∧ Opens bs outer ∧ Dyck inner

namespace Opens

variable {bs cs : List Bracket} {ws vs : List Mark}

theorem append_dyck (hw : Opens bs ws) (hv : Dyck vs) : Opens bs (ws ++ vs) := by
  cases bs with
  | nil => exact Dyck.append hw hv
  | cons b bs =>
      obtain ⟨outer, inner, rfl, houter, hinner⟩ := hw
      exact ⟨outer, inner ++ vs, by simp, houter, hinner.append hv⟩

/-- What the second word leaves open is inside what the first does. -/
theorem append (hw : Opens bs ws) (hv : Opens cs vs) : Opens (cs ++ bs) (ws ++ vs) := by
  induction cs generalizing vs with
  | nil => exact hw.append_dyck hv
  | cons c cs ih =>
      obtain ⟨outer, inner, rfl, houter, hinner⟩ := hv
      exact ⟨ws ++ outer, inner, by simp, ih houter, hinner⟩

theorem opening (b : Bracket) (hw : Opens bs ws) : Opens (b :: bs) (ws ++ [.opening b]) :=
  ⟨ws, [], rfl, hw, .nil⟩

theorem closing {b : Bracket} (hw : Opens (b :: bs) ws) : Opens bs (ws ++ [.closing b]) := by
  obtain ⟨outer, inner, rfl, houter, hinner⟩ := hw
  have hpair : Dyck (.opening b :: inner ++ [.closing b]) := .pair b hinner .nil
  simpa using houter.append_dyck hpair

end Opens

/-! ## brackets of trees -/

/-- The brackets of trees in a row. -/
def Tree.brackets (ts : List Tree) : List Mark := FreeNames.brackets (tokensAll ts)

namespace Tree

@[simp] theorem brackets_nil : brackets [] = [] := rfl

@[simp] theorem brackets_append (ts us : List Tree) :
    brackets (ts ++ us) = brackets ts ++ brackets us := by
  rw [brackets, tokensAll_append]
  exact List.filterMap_append

@[simp] theorem brackets_leaf (t : Token) :
    brackets [.leaf t] = (Mark.ofKind? t.kind).toList := by
  cases h : Mark.ofKind? t.kind <;>
    simp [brackets, FreeNames.brackets, tokensAll, tokens, h]

theorem brackets_node (k : NodeKind) (parts : List Tree) :
    brackets [.node k parts] = brackets parts := by
  simp [brackets, tokensAll, tokens]

theorem brackets_trivia {t : Token} (h : t.isTrivia = true) : brackets [.leaf t] = [] := by
  rw [brackets_leaf]
  unfold Token.isTrivia TokenKind.isTrivia at h
  split at h
  · next heq => rw [heq]; rfl
  · cases h

/-- Trivia holds no brackets. -/
theorem brackets_solids (ts : List Tree) : brackets (solids ts) = brackets ts := by
  induction ts with
  | nil => rfl
  | cons t ts ih =>
      rw [← List.singleton_append, solids_append, brackets_append, brackets_append, ih]
      cases t with
      | node k parts => rfl
      | leaf u =>
          cases hu : u.isTrivia with
          | true => rw [brackets_trivia hu, solids, List.filter_singleton]; simp [isSolid, hu]
          | false => rw [solids_leaf hu]; rfl

end Tree

/-! ## open brackets through the scripts -/

namespace Bracket

/-- The brackets that are open after a token, if it closes none that is not. -/
def after (bs : List Bracket) (k : TokenKind) : Option (List Bracket) :=
  match Mark.ofKind? k, bs with
  | none, bs => some bs
  | some (.opening b), bs => some (b :: bs)
  | some (.closing b), c :: bs => if b = c then some bs else none
  | some (.closing _), [] => none

/-- What is open after the next token, if all that it can be leave the same open. -/
def afterNext (σ : Sight) (bs : List Bracket) : Option (List Bracket) :=
  match (Sight.kinds σ.first).map (after bs) with
  | [] => none
  | r :: rs => if rs.all (· = r) then r else none

/-- Counting the brackets that are open. -/
def tally : Tally (List Bracket) where
  empty := []
  add bs cs := cs ++ bs
  take := afterNext
  wrap _ bs := bs
  closes _ bs := bs = []
  join bs cs := if bs = cs then some bs else none
  le bs cs := bs = cs
  widen bs := bs
  needs _ := []
  gives _ := []

variable {bs cs : List Bracket} {k : TokenKind}

theorem opens_after {ws : List Mark} (h : after bs k = some cs) (hw : Opens bs ws) :
    Opens cs (ws ++ (Mark.ofKind? k).toList) := by
  unfold after at h
  split at h
  · next hk =>
      obtain rfl := Option.some.inj h
      rw [hk, Option.toList_none, List.append_nil]
      exact hw
  · next hk =>
      obtain rfl := Option.some.inj h
      rw [hk]
      exact hw.opening _
  · next hk =>
      rw [Option.ite_none_right_eq_some, Option.some.injEq] at h
      obtain ⟨rfl, rfl⟩ := h
      rw [hk]
      exact hw.closing
  · cases h

theorem after_of_afterNext {σ : Sight} (hk : k ∈ Sight.kinds σ.first)
    (h : afterNext σ bs = some cs) : after bs k = some cs := by
  have hmem := List.mem_map_of_mem (f := after bs) hk
  unfold afterNext at h
  split at h
  · cases h
  · next r rs heq =>
      rw [Option.ite_none_right_eq_some, List.all_eq_true] at h
      rw [heq, List.mem_cons] at hmem
      rcases hmem with hr | hr
      · exact hr.trans h.2
      · exact (of_decide_eq_true (h.1 _ hr)).trans h.2

/-- Trees in a row leave brackets open. -/
def Means (bs : List Bracket) (ts : List Tree) : Prop := Opens bs (Tree.brackets ts)

/-- The brackets of the parts of a node are nested. -/
def Good (_ : NodeKind) (parts : List Tree) : Prop := Dyck (Tree.brackets parts)

theorem lawful_tally : tally.Lawful Means Good where
  empty := Dyck.nil
  add hb hc := by
    rw [Means, Tree.brackets_append]
    exact hb.append hc
  take {_ d _ _ _ _ l _} hσ hrest _ htake hb := by
    have hkind : d.kind = l.token.kind := by simp [Draft.kind, Draft.kindAt, hrest]
    rw [Means, Tree.brackets_append, Tree.brackets_leaf, ← hkind]
    exact opens_after (after_of_afterNext hσ.first htake) hb
  wrap k _ hb := by
    rw [Means, Tree.brackets_node, ← Tree.brackets_solids]
    exact hb
  closes hcloses hb := by
    obtain rfl := of_decide_eq_true hcloses
    rw [Means, Tree.brackets_solids] at hb
    exact hb
  join hjoin hb := by
    simp only [tally, Option.ite_none_right_eq_some, Option.some.injEq] at hjoin
    obtain ⟨rfl, rfl⟩ := hjoin
    exact hb.elim id id
  mono hle hb := by
    obtain rfl := of_decide_eq_true hle
    exact hb

end Bracket

set_option maxRecDepth 10000 in
/-- Each production closes the brackets that it opens. -/
theorem Production.read_brackets (p : Production) :
    (((Spelling.full.script p).read Bracket.tally.reading p.entry
      (Bracket.tally.reading.needs p)).all fun g =>
        Bracket.tally.reading.le g (Bracket.tally.reading.gives p)) = true := by
  cases p with
  | binary least => rfl
  | binaryTail least => rfl
  | suffixes calls => cases calls <;> decide +kernel
  | _ => decide +kernel

theorem holds_brackets :
    Bracket.tally.reading.Holds (Count.Fits Bracket.Means Bracket.Good) grammar :=
  Bracket.lawful_tally.sound.holds_grammar .full Production.read_brackets

set_option maxRecDepth 10000 in
theorem read_brackets_moduleItem (source : SourceType) :
    (((Spelling.full.item source).read Bracket.tally.reading {} ⟨true, some [], true⟩).all fun g =>
      Bracket.tally.countLe g ⟨true, some [], true⟩) = true := by
  cases source <;> decide

/-- The brackets of a text without problems are properly nested, and so are those below
each node. -/
theorem brackets_nested (source : SourceType) (text : Text)
    (h : (parse source text).problems = []) :
    Dyck (brackets (tokenize text)) ∧
      ∀ s ∈ (parse source text).root.descendants,
        Dyck (brackets (Tree.tokensAll s.node.parts)) := by
  obtain ⟨hall, hmeans⟩ := Bracket.lawful_tally.ofText (S := .full) holds_brackets
    (read_brackets_moduleItem source) rfl h
  have hroot : Dyck (brackets (Tree.tokensAll (parse source text).root.node.parts)) := by
    rw [Bracket.Means, Tree.brackets_solids] at hmeans
    exact hmeans
  refine ⟨tokensAll_root source text ▸ hroot, fun s hs => ?_⟩
  rcases ((Site.mem_descendants_iff.mp hs).all hall).1 with rfl | hs
  · exact hroot
  · exact hs

theorem brackets_nested_call :
    (parse .script "f(\x7ba: [`\x24\x7bb[(c)]\x7d`]\x7d)".toList).problems = [] ∧
      brackets (tokenize "f(\x7ba: [`\x24\x7bb[(c)]\x7d`]\x7d)".toList) =
        [.opening .round, .opening .curly, .opening .square, .opening .square, .opening .round,
          .closing .round, .closing .square, .closing .square, .closing .curly, .closing .round] ∧
      Dyck (brackets (tokenize "f(\x7ba: [`\x24\x7bb[(c)]\x7d`]\x7d)".toList)) ∧
      ∃ s ∈ (parse .script "f(\x7ba: [`\x24\x7bb[(c)]\x7d`]\x7d)".toList).root.descendants,
        s.node.kind = .templateLiteral ∧
          brackets (Tree.tokensAll s.node.parts) =
            [.opening .square, .opening .round, .closing .round, .closing .square] ∧
          Dyck (brackets (Tree.tokensAll s.node.parts)) := by
  have hrun : (parse .script "f(\x7ba: [`\x24\x7bb[(c)]\x7d`]\x7d)".toList).problems = [] ∧
      brackets (tokenize "f(\x7ba: [`\x24\x7bb[(c)]\x7d`]\x7d)".toList) =
        [.opening .round, .opening .curly, .opening .square, .opening .square, .opening .round,
          .closing .round, .closing .square, .closing .square, .closing .curly,
          .closing .round] ∧
      ∃ s ∈ (parse .script "f(\x7ba: [`\x24\x7bb[(c)]\x7d`]\x7d)".toList).root.descendants,
        s.node.kind = .templateLiteral ∧
          brackets (Tree.tokensAll s.node.parts) =
            [.opening .square, .opening .round, .closing .round, .closing .square] := by
    decide +kernel
  obtain ⟨h, hmarks, s, hs, hk, hparts⟩ := hrun
  obtain ⟨hall, hbelow⟩ := brackets_nested .script _ h
  exact ⟨h, hmarks, hall, s, hs, hk, hparts, hbelow s hs⟩

end FreeNames
