import FreeNames.Proofs.Grouping
import FreeNames.Proofs.Margins
import FreeNames.Proofs.ReservedProperties

/-!
# FreeNames.Proofs.Following

Whether a property follows a reference, in the text and in the tree.

The text is searched for a dot and the characters of the property, after which no more of
a name may come.  Which characters these are is not what the tokens are read by: a name is
read on over anything above ASCII that is no white space, and is an error if Unicode does
not allow it.  In a text without errors the two agree: `Lexed.followed_iff`.

A dot is part of a member access or of a meta property.  If a reference ends right before
it, the reference is the whole object of a member access: `Site.Reaches.of_dot`.

Main statement: `followedBy_iff_member`.
-/

namespace FreeNames

/-! ## where a name ends -/

/-- Reserved words are spelt in ASCII. -/
theorem Keyword.lt_of_mem_spelling (k : Keyword) {c : Char} (hc : c ∈ k.spelling) :
    c.toNat < 0x80 := by
  have hall : (k.spelling.all fun c => c.toNat < 0x80) = true := by
    cases k <;> decide
  exact of_decide_eq_true (List.all_eq_true.mp hall c hc)

namespace Name

theorem Parts.append {x y : Text} (hx : Parts x) (hy : Parts y) : Parts (x ++ y) := by
  induction hx with
  | nil => exact hy
  | char hc _ ih => exact .char hc ih
  | escape he _ ih =>
      rw [List.append_assoc]
      exact .escape he ih

theorem IsName.append {x y : Text} (hx : IsName x) (hy : Parts y) : IsName (x ++ y) := by
  obtain ⟨c, cs, rfl, hc⟩ := hx.exists_cons
  exact ⟨hx.parts.append hy, c, rfl, hc⟩

/-- A character that may go on a name is read as part of it, unless it starts an escape. -/
theorem isPartChar_of_isNamePart {c : Char} (h : Rule.isNamePart c = true) (hc : c ≠ '\\') :
    isPartChar c = true := by
  have hwide (hlarge : 0x80 ≤ c.toNat) (hblank : isBlank c = false) : isPartChar c = true := by
    simp [isPartChar, isStartChar, hlarge, hblank]
  simp only [Rule.isNamePart, Bool.or_eq_true, decide_eq_true_eq, hc, or_false] at h
  rcases h with ((rfl | hjoin) | hjoin) | hcontinue
  · decide
  · exact hwide (by omega) (by simp [isBlank, hjoin])
  · exact hwide (by omega) (by simp [isBlank, hjoin])
  · by_cases hascii : c.toNat < 0x80
    · simp only [Xid.isContinue, if_pos hascii, Char.isAlphanum, Bool.or_eq_true,
        decide_eq_true_eq] at hcontinue
      rcases hcontinue with (halpha | hdigit) | rfl
      · simp [isPartChar, isStartChar, halpha]
      · simp [isPartChar, hdigit]
      · decide
    · refine hwide (by omega) (Bool.eq_false_iff.mpr fun hblank => ?_)
      simp [not_isContinue_of_isBlank hblank (by omega)] at hcontinue

/-- A character is read as part of a name but may not go on one only if it is above ASCII and
Unicode does not allow it. -/
theorem not_isContinue_of_isPartChar {c : Char} (h : isPartChar c = true)
    (hc : Rule.isNamePart c = false) : 0x80 ≤ c.toNat ∧ Xid.isContinue c = false := by
  simp only [Rule.isNamePart, Bool.or_eq_false_iff, decide_eq_false_iff_not] at hc
  obtain ⟨⟨⟨⟨hdollar, -⟩, -⟩, -⟩, hcontinue⟩ := hc
  refine ⟨Nat.le_of_not_lt fun hascii => ?_, hcontinue⟩
  simp only [Xid.isContinue, if_pos hascii, Char.isAlphanum, Bool.or_eq_false_iff,
    decide_eq_false_iff_not] at hcontinue
  simp only [isPartChar, isStartChar, hcontinue, hdollar, Bool.or_eq_true, Bool.and_eq_true,
    decide_eq_true_eq, Bool.false_eq_true, or_false, false_or] at h
  omega

/-- Characters above ASCII after the first one of a name are allowed there, if the name is no
error. -/
theorem isContinue_of_kindOf {c : Char} {x r : Text} (h : kindOf x r ≠ .error) (hc : c ∈ x.tail)
    (hlarge : 0x80 ≤ c.toNat) : Xid.isContinue c = true := by
  unfold kindOf at h
  split at h
  · next k hk =>
      split at hk
      · cases hk
      · rw [← Keyword.spelling_of_ofText? hk] at hc
        exact absurd hlarge (Nat.not_le.mpr (k.lt_of_mem_spelling (List.mem_of_mem_tail hc)))
  · split at h
    · next hallowed =>
        cases x with
        | nil => cases hc
        | cons d x =>
            simp only [isAllowed, Bool.and_eq_true, List.all_eq_true, Bool.or_eq_true,
              decide_eq_true_eq] at hallowed
            exact (hallowed.2 c hc).resolve_left (Nat.not_lt.mpr hlarge)
    · exact absurd rfl h

/-- A name that is no error ends where no more of it may come. -/
theorem scan_eq_of_not_isNamePart {x r : Text} (hx : IsName x)
    (hr : ∀ c ∈ r.head?, Rule.isNamePart c = false) (h : (scan (x ++ r)).1 ≠ .error) :
    scan (x ++ r) = (kindOf x r, x.length) := by
  obtain ⟨z, s, hsplit, hz, hs, hscan⟩ := exists_isName_of_scan h
  obtain ⟨y, s', rfl, hy, hs'⟩ := exists_parts r
  have hlength : (x ++ y).length = z.length := by
    rw [← length_append (hx.append hy) hs', List.append_assoc, hsplit, length_append hz hs]
  rw [← List.append_assoc] at hsplit
  obtain ⟨rfl, rfl⟩ := List.append_inj hsplit hlength
  cases y with
  | nil => simpa using hscan
  | cons c y =>
      have hc := hr c rfl
      rw [hscan] at h
      have hpart : isPartChar c = true := by
        generalize hcy : c :: y = w at hy
        cases hy with
        | nil => cases hcy
        | char hpart _ => exact (List.cons.inj hcy).1 ▸ hpart
        | escape he _ =>
            obtain rfl : c = '\\' := by cases he <;> exact (List.cons.inj hcy).1
            cases hc
      obtain ⟨hlarge, hcontinue⟩ := not_isContinue_of_isPartChar hpart hc
      obtain ⟨d, x, rfl, -⟩ := hx.exists_cons
      rw [isContinue_of_kindOf h (by simp) hlarge] at hcontinue
      cases hcontinue

end Name

/-! ## a dot and a name -/

theorem Punct.at?_dot {c : Char} (hc : c ≠ '.') (cs : Text) :
    at? ('.' :: c :: cs) = some .dot := by
  have hdots : (all.filter fun p => p.spelling.head? = some '.') = [.dot, .dotDotDot] := rfl
  have hdot : spelling .dot = ['.'] := rfl
  have hdotDotDot : spelling .dotDotDot = ['.', '.', '.'] := rfl
  rw [at?, filter_all_cons, hdots]
  simp [hdot, hdotDotDot, longer, Ne.symm hc]

theorem Mode.scan_dot {m : Mode} {first : Bool} {c : Char} (hc : Name.Starts c) (cs : Text) :
    m.scan first ('.' :: c :: cs) = (.punct .dot, 1) := by
  have hnumber : Number.length ('.' :: c :: cs) = 0 := by
    rw [Number.length_eq_zero_iff]
    exact ⟨by decide, fun _ d hd => by simpa using (Option.some.inj hd ▸ hc.not_digit)⟩
  have hpunct : scanPunct ('.' :: c :: cs) = (.punct .dot, 1) := by
    rw [scanPunct, Punct.at?_dot (hc.ne (by decide))]
    rfl
  simp [Mode.scan, hnumber, hpunct, show Name.isBlank '.' = false by decide,
    show Name.isStartChar '.' = false by decide]

namespace Lexed

variable {m : Mode} {first : Bool} {t : Token} {ts : List Token}

/-- The first token is the one that is read from the text. -/
theorem exists_cons_of_scan {x r : Text} {k : TokenKind} (h : Lexed m first ts) (hx : x ≠ [])
    (hts : Token.concat ts = x ++ r) (hscan : m.scan first (x ++ r) = (k, x.length)) :
    ∃ us, ts = ⟨k, x⟩ :: us ∧ Token.concat us = r ∧ Lexed (m.after ⟨k, x⟩) false us := by
  cases h with
  | nil => simp [Token.concat, hx] at hts
  | @cons _ _ t us hne hread rest =>
      rw [← Token.concat_cons, hts, hscan] at hread
      obtain ⟨rfl, hlen⟩ := Prod.mk.inj hread
      rw [Token.concat_cons] at hts
      obtain ⟨rfl, hrest⟩ := List.append_inj hts hlen.symm
      exact ⟨us, rfl, hrest, rest⟩

/-- A token that is a name, reserved or not, ends where no part of a name follows. -/
theorem isName (h : Lexed m first (t :: ts)) (hk : t.kind.isIdentifierName = true) :
    Name.IsName t.text ∧ Name.part (Token.concat ts) = 0 := by
  cases h with
  | cons hne hscan _ =>
      obtain ⟨c, cs, hcons⟩ := List.exists_cons_of_ne_nil hne
      have hname : m.scan first (c :: (cs ++ Token.concat ts)) =
          Name.scan (c :: (cs ++ Token.concat ts)) :=
        Mode.scan_eq_of_isIdentifierName (by rw [← List.cons_append, ← hcons, hscan]; exact hk)
      rw [← List.cons_append, ← hcons, hscan] at hname
      have herror : (Name.scan (t.text ++ Token.concat ts)).1 ≠ .error := by
        rw [← hname]
        rintro herror
        simp only [] at herror
        simp [herror, TokenKind.isIdentifierName] at hk
      obtain ⟨x, r, hsplit, hx, hpart, hread⟩ := Name.exists_isName_of_scan herror
      obtain ⟨rfl, rfl⟩ := List.append_inj hsplit (Prod.mk.inj (hname.trans hread)).2
      exact ⟨hx, hpart⟩

/-- A token that spells a whole name is read as one. -/
theorem isIdentifierName (h : Lexed m first (t :: ts)) (ht : t.kind ≠ .error)
    (hname : Name.IsName t.text) : t.kind.isIdentifierName = true := by
  cases h with
  | cons _ hscan _ =>
      obtain ⟨c, cs, hcs, hc⟩ := hname.exists_cons
      rw [hcs, List.cons_append, Mode.scan_of_starts hc, ← List.cons_append, ← hcs] at hscan
      rcases Name.scan_kind (t.text ++ Token.concat ts) with hk | hk | ⟨k, hk⟩
      all_goals rw [hscan] at hk
      · exact absurd hk ht
      · rw [show t.kind = _ from hk]
        rfl
      · rw [show t.kind = _ from hk]
        rfl

/-- After a name no more of a name may come, where no token is an error. -/
theorem not_isNamePart (h : Lexed m first (t :: ts)) (hok : ∀ u ∈ ts, u.kind ≠ .error)
    (hk : t.kind.isIdentifierName = true) :
    ∀ c ∈ (Token.concat ts).head?, Rule.isNamePart c = false := by
  intro c hc
  obtain ⟨cs, hcs⟩ : ∃ cs, Token.concat ts = c :: cs := by
    cases hts : Token.concat ts with
    | nil => simp [hts] at hc
    | cons d ds => exact ⟨ds, by simpa [hts] using hc⟩
  have hpart := (h.isName hk).2
  refine Bool.eq_false_iff.mpr fun hgoes => ?_
  by_cases hback : c = '\\'
  · -- a backslash that is read as no part of a name is an error
    subst hback
    cases h with
    | cons _ _ hrest =>
        refine hrest.escape_ne_zero hok hc ?_
        rw [hcs, Name.part, if_neg (by decide)] at hpart
        rw [hcs, hpart]
  · rw [hcs, Name.part, if_pos (Name.isPartChar_of_isNamePart hgoes hback)] at hpart
    cases hpart

/-- Tokens spell a dot and a whole name exactly when these are the first two of them. -/
theorem followed_iff {p : Text} (h : Lexed m first ts) (hok : ∀ t ∈ ts, t.kind ≠ .error)
    (hp : Name.IsName p) :
    (∃ r, Token.concat ts = '.' :: p ++ r ∧ ∀ c ∈ r.head?, Rule.isNamePart c = false) ↔
      ∃ k us, ts = ⟨.punct .dot, ['.']⟩ :: ⟨k, p⟩ :: us := by
  obtain ⟨c, cs, hcs, hc⟩ := hp.exists_cons
  constructor
  · rintro ⟨r, hts, hr⟩
    obtain ⟨us, rfl, hus, hlexed⟩ := h.exists_cons_of_scan (x := ['.']) (r := p ++ r) (by simp) hts
      (by rw [hcs]; exact Mode.scan_dot hc _)
    -- what comes after the dot is read as a name
    have hstart : (m.after ⟨.punct .dot, ['.']⟩).scan false (p ++ r) = Name.scan (p ++ r) := by
      rw [hcs]
      exact Mode.scan_of_starts hc _
    have herror : (Name.scan (p ++ r)).1 ≠ .error := by
      cases hlexed with
      | nil => simp [Token.concat, hcs] at hus
      | @cons _ _ t us hne hread _ =>
          rw [← Token.concat_cons, hus, hstart] at hread
          rw [hread]
          exact hok t (by simp)
    have hscan := Name.scan_eq_of_not_isNamePart hp hr herror
    obtain ⟨vs, rfl, -⟩ := hlexed.exists_cons_of_scan hp.ne_nil hus (hstart.trans hscan)
    exact ⟨_, vs, rfl⟩
  · rintro ⟨k, us, rfl⟩
    refine ⟨Token.concat us, by simp [Token.concat_cons], ?_⟩
    cases h with
    | cons _ _ hrest =>
        exact hrest.not_isNamePart (fun t ht => hok t (by simp [ht]))
          (hrest.isIdentifierName (hok _ (by simp)) hp)

end Lexed

/-! ## trees around a dot -/

namespace Tree

/-- A row with one tree that is not trivia. -/
theorem exists_append_of_solids {ts : List Tree} {u : Tree} (h : solids ts = [u]) :
    ∃ before after, ts = before ++ u :: after ∧ solids before = [] ∧ solids after = [] := by
  obtain ⟨before, after, rfl, hbefore, -, hafter⟩ := List.filter_eq_cons_iff.mp h
  exact ⟨before, after, rfl, List.filter_eq_nil_iff.mpr hbefore, hafter⟩

theorem trivia_of_solids {ts : List Tree} (h : solids ts = []) :
    ∀ t ∈ tokensAll ts, t.isTrivia = true := by
  induction ts with
  | nil => simp
  | cons u us ih =>
      cases u with
      | node k parts => simp at h
      | leaf t =>
          cases ht : t.isTrivia with
          | false => simp [solids_leaf ht] at h
          | true =>
              have hus : solids us = [] := by simpa [solids, isSolid, ht] using h
              simpa [ht] using ih hus

/-- A token that ends a row with one tree in it, trivia aside, ends this tree. -/
theorem exists_last_of_solids {ts : List Tree} {u : Tree} {t : Token} {first before : List Token}
    (hsolids : solids ts = [u]) (hu : u.tokens ≠ []) (ht : t.isTrivia = false)
    (h : first ++ tokensAll ts = before ++ [t]) :
    ∃ ls rs inner, ts = ls ++ u :: rs ∧ solids ls = [] ∧ u.tokens = inner ++ [t] ∧
      first ++ tokensAll ls ++ inner = before := by
  obtain ⟨ls, rs, rfl, hls, hrs⟩ := exists_append_of_solids hsolids
  have hnil : tokensAll rs = [] := by
    rcases List.eq_nil_or_concat (tokensAll rs) with hnil | ⟨others, v, hv⟩
    · exact hnil
    · have hlast : (first ++ tokensAll ls ++ u.tokens ++ others) ++ [v] = before ++ [t] := by
        simpa [hv] using h
      obtain rfl : v = t := by simpa using (List.append_inj' hlast rfl).2
      rw [trivia_of_solids hrs v (by simp [hv])] at ht
      cases ht
  obtain ⟨inner, v, hv⟩ := (List.eq_nil_or_concat u.tokens).resolve_left hu
  have hlast : (first ++ tokensAll ls ++ inner) ++ [v] = before ++ [t] := by
    simpa [hv, hnil] using h
  obtain ⟨hinner, hvt⟩ := List.append_inj' hlast rfl
  obtain rfl : v = t := by simpa using hvt
  exact ⟨ls, rs, inner, rfl, hls, by simpa using hv, hinner⟩

/-- A token that starts a row with one tree in it, trivia aside, starts this tree. -/
theorem exists_cons_of_solids {ts : List Tree} {u : Tree} {t : Token} {last after : List Token}
    (hsolids : solids ts = [u]) (ht : t.isTrivia = false)
    (h : tokensAll ts ++ last = t :: after) : ∃ rs, ts = u :: rs := by
  obtain ⟨ls, rs, rfl, hls, -⟩ := exists_append_of_solids hsolids
  cases ls with
  | nil => exact ⟨rs, rfl⟩
  | cons l ls =>
      cases l with
      | node k parts => simp at hls
      | leaf v =>
          obtain rfl : v = t := by simpa using congrArg List.head? h
          rw [trivia_of_solids hls v (by simp)] at ht
          cases ht

end Tree

theorem Node.among_eq_nil {start : Nat} {ts : List Tree} (h : Tree.solids ts = []) :
    among start ts = [] := by
  rw [← List.map_eq_nil_iff (f := tree), map_tree_among, h]
  rfl

/-- Rows of tokens that are not empty agree up to where they take as many bytes. -/
theorem Token.append_inj_of_sizeAll {as bs cs ds : List Token} (h : as ++ bs = cs ++ ds)
    (hsize : sizeAll as = sizeAll cs) (hne : ∀ t ∈ as ++ bs, t.text ≠ []) :
    as = cs ∧ bs = ds := by
  have hnil (ts : List Token) (hmem : ts ⊆ as ++ bs) (hzero : sizeAll ts = 0) : ts = [] := by
    cases ts with
    | nil => rfl
    | cons t ts =>
        have hpos := Token.size_pos (hne t (hmem List.mem_cons_self))
        rw [sizeAll_cons] at hzero
        omega
  rcases List.append_eq_append_iff.mp h with ⟨ts, rfl, rfl⟩ | ⟨ts, rfl, rfl⟩
  all_goals
    rw [sizeAll_append] at hsize
    obtain rfl := hnil ts (by simp) (by omega)
    simp

/-- Nodes that may refer are of one token. -/
theorem NodeKind.isUnit_of_refers {k : NodeKind} (h : k.refers = true) : k.isUnit = true := by
  revert h
  cases k <;> simp [refers, isUnit]

namespace Site

variable {source : SourceType} {text : Text}

/-- No part of a node is empty, where no problem is met. -/
theorem Reaches.tokens_ne_nil {s : Site} {p : Tree} (h : (parse source text).problems = [])
    (hs : (parse source text).root.Reaches s) (hp : p ∈ s.node.parts) : p.tokens ≠ [] := by
  cases (hs.all (ends_root h)).2 p hp with
  | leaf t => simp
  | node here _ =>
      obtain ⟨t, ht, -⟩ := here
      exact List.ne_nil_of_mem (List.mem_of_getLast? ht)

theorem Reaches.part_size_pos {s : Site} {p : Tree} (h : (parse source text).problems = [])
    (hs : (parse source text).root.Reaches s) (hp : p ∈ s.node.parts) : 0 < p.size := by
  obtain ⟨t, ts, htokens⟩ := List.exists_cons_of_ne_nil (hs.tokens_ne_nil h hp)
  obtain ⟨before, after, hparts⟩ := List.append_of_mem hp
  have hpos := hs.size_pos (t := t) (by simp [hparts, htokens])
  rw [Tree.size_eq, htokens, Token.sizeAll_cons]
  omega

/-- A tree that ends where a reference does ends with the reference. -/
theorem Reaches.endsInReference {c s : Site} (h : (parse source text).problems = [])
    (hc : (parse source text).root.Reaches c) (hs : c.Reaches s)
    (hstop : s.node.span.stop = c.node.span.stop) (hends : s.node.tree.EndsInReference) :
    c.node.tree.EndsInReference := by
  -- from the reference outwards, each node is the last part of the one around it
  induction hs with
  | refl => exact hends
  | @child s b hs hb ih =>
      obtain ⟨n, hn, rfl⟩ := List.mem_map.mp hb
      have hinner : n.span.stop ≤ s.node.span.stop :=
        (Reaches.bounds (.child .refl hb)).2
      have houter := hs.bounds.2
      obtain ⟨before, after, hparts, hstart⟩ := Node.mem_among hn
      have hrest : s.node.span.stop = n.span.stop + Tree.sizeAll after := by
        simp only [Node.span, hparts, hstart, Tree.sizeAll_eq, Tree.tokensAll_append,
          Tree.tokensAll_cons, Token.sizeAll_append, Tree.tokens]
        omega
      have hafter : after = [] := by
        cases after with
        | nil => rfl
        | cons p ps =>
            have hpos := (hc.trans hs).part_size_pos h (p := p) (by simp [hparts])
            simp only [Tree.sizeAll] at hrest hstop
            omega
      subst hafter
      refine ih ?_ (.inner ?_ hends)
      · exact Nat.le_antisymm houter (hstop ▸ hinner)
      · simp [hparts, Tree.solids_append, Node.tree]

/-- The tokens around one that is directly inside a site. -/
theorem Reaches.tokens_around {s : Site} {before after : List Tree} {t u : Token}
    {us vs : List Token} (hs : (parse source text).root.Reaches s)
    (htokens : tokenize text = us ++ t :: vs) (hparts : s.node.parts = before ++ .leaf u :: after)
    (hoffset : Token.sizeAll us = s.node.start + Tree.sizeAll before) :
    ∃ first last, first ++ Tree.tokensAll before = us ∧ Token.sizeAll first = s.node.start ∧
      Tree.tokensAll after ++ last = vs := by
  obtain ⟨first, last, hstands, hstart⟩ := stands_of_within hs.within
  rw [hparts, htokens] at hstands
  rw [Nat.zero_add] at hstart
  have hsplit : us ++ t :: vs =
      (first ++ Tree.tokensAll before) ++ u :: (Tree.tokensAll after ++ last) := by
    simpa using hstands
  obtain ⟨rfl, hrest⟩ := Token.append_inj_of_sizeAll hsplit
    (by rw [hoffset, hstart, Tree.sizeAll_eq, Token.sizeAll_append])
    fun t ht => text_ne_nil_of_mem_tokenize (htokens ▸ ht)
  exact ⟨first, last, rfl, hstart.symm, (List.cons.inj hrest).2.symm⟩

/-- A simple tree whose last token is that of a reference is the reference. -/
theorem Reaches.eq_of_simple {c r : Site} {t : Token} {inner : List Token}
    (h : (parse source text).problems = []) (hc : (parse source text).root.Reaches c)
    (hr : (parse source text).root.Reaches r) (hk : r.node.kind.refers = true)
    (ht : t.isTrivia = false) (hparts : r.node.parts = [.leaf t])
    (htokens : Tree.tokensAll c.node.parts = inner ++ [t])
    (hstart : r.node.start = c.node.start + Token.sizeAll inner) (hsimple : c.node.tree.Simple) :
    c = r := by
  have hcr : c.Reaches r := by
    obtain ⟨a, ha, hholds⟩ : ∃ a, c.Reaches a ∧ a.node.Holds r.node.start t := by
      refine exists_holds ?_
      rw [Token.mem_locate_iff]
      exact ⟨inner, [], htokens, hstart⟩
    have har := (hc.trans ha).eq_of_holds hr hholds (Node.holds_of_parts hparts)
    exact har ▸ ha
  rcases hsimple with ⟨k, parts, htree, hrefers⟩ | hnot
  · obtain ⟨rfl, -⟩ := Tree.node.inj htree
    exact (eq_of_reaches_of_children hcr (hc.unit (NodeKind.isUnit_of_refers hrefers)).1).symm
  · have hlast : (Tree.solids r.node.parts).getLast? = some (.leaf t) := by
      rw [hparts, Tree.solids_leaf ht]
      rfl
    refine absurd (hc.endsInReference h hcr ?_ (.here hk hlast)) hnot
    simp [Node.span, hstart, Tree.sizeAll_eq, htokens, hparts, Nat.add_assoc]

/-- The tokens around that of a node of one token. -/
theorem Reaches.exists_tokens {s : Site} (hs : (parse source text).root.Reaches s)
    (hk : s.node.kind.isUnit = true) :
    ∃ us t vs, tokenize text = us ++ [t] ++ vs ∧ s.node.parts = [.leaf t] ∧
      t.isTrivia = false ∧ s.node.start = Token.sizeAll us ∧
      Token.sizeAll (us ++ [t]) = s.node.span.stop := by
  obtain ⟨t, hparts, hfits, -, hmem⟩ := hs.within.exists_token hk
  obtain ⟨us, vs, hsplit, hstart⟩ := Token.mem_locate_iff.mp hmem
  rw [Nat.zero_add] at hstart
  exact ⟨us, t, vs, by simp [hsplit], hparts, NodeKind.not_isTrivia_of_fits hfits, hstart,
    by simp [Node.span_eq hparts, hstart]⟩

/-- A reference right before a dot and a name is the object of a member access with the name for
its property. -/
theorem Reaches.of_dot {r : Site} {us vs : List Token} {t dot name : Token}
    (h : (parse source text).problems = []) (hr : (parse source text).root.Reaches r)
    (hk : r.node.kind.refers = true) (hrparts : r.node.parts = [.leaf t])
    (ht : t.isTrivia = false) (hstart : r.node.start = Token.sizeAll us)
    (htokens : tokenize text = us ++ [t] ++ dot :: name :: vs) (hdot : dot.kind = .punct .dot)
    (hname : name.isTrivia = false) :
    ∃ m, (parse source text).root.Reaches m ∧ m.node.kind = .memberExpr ∧
      m.children.head? = some r ∧ m.node.Holds r.node.span.stop dot ∧
      ∃ n ∈ m.node.children, n.kind = .propertyName ∧ n.start = r.node.span.stop + dot.size ∧
        Tree.tokensAll n.parts = [name] := by
  have hstop : Token.sizeAll (us ++ [t]) = r.node.span.stop := by
    simp [Node.span_eq hrparts, hstart]
  -- the node that the dot is directly inside
  obtain ⟨m, hm, before, after, hparts, hoffset⟩ :
      ∃ m, (parse source text).root.Reaches m ∧ m.node.Holds (Token.sizeAll (us ++ [t])) dot := by
    refine exists_holds ?_
    rw [tokensAll_root, Token.mem_locate_iff]
    exact ⟨_, _, htokens, by simp [Parse.root]⟩
  obtain ⟨first, last, hfirst, hmstart, hlast⟩ := hm.tokens_around htokens hparts hoffset
  have hshaped : Tree.Shaped m.node.kind m.node.parts := by
    cases hm.shaped h with
    | node here _ => exact here
  rw [hparts] at hshaped
  rcases hshaped.of_dot hdot with ⟨hkind, j, object, property, hobject, hsimple, hproperty⟩ |
    ⟨hkind, word, hword⟩
  · have hpart : Tree.node j object ∈ Tree.solids before := by simp [hobject]
    have hne := hm.tokens_ne_nil h (p := .node j object)
      (by simp [hparts, (List.mem_filter.mp hpart).1])
    obtain ⟨ls, rs, inner, rfl, hls, hinner, hbefore⟩ :=
      Tree.exists_last_of_solids hobject hne ht hfirst
    obtain ⟨rs', rfl⟩ := Tree.exists_cons_of_solids hproperty hname hlast
    have hobjects : m.children.head? =
        some ⟨⟨m.node.start + Tree.sizeAll ls, j, object⟩, m.node :: m.above⟩ := by
      simp [children, Node.children, hparts, Node.among_append, Node.among_eq_nil hls, Node.among]
    have heq := (hm.child (List.mem_of_mem_head? hobjects)).eq_of_simple h hr hk ht hrparts hinner
      (by simp [hstart, ← hbefore, hmstart, Tree.sizeAll_eq, Nat.add_assoc]) hsimple
    have hnode : (⟨r.node.span.stop + dot.size, .propertyName, property⟩ : Node) ∈
        m.node.children := by
      rw [Node.children, hparts, Node.among_append]
      simp [Node.among, ← hoffset, hstop]
    obtain ⟨u, huparts, -⟩ := (hm.within.child hnode).exists_token rfl
    refine ⟨m, hm, hkind, heq ▸ hobjects, ⟨_, _, hparts, hstop ▸ hoffset⟩, _, hnode, rfl, rfl, ?_⟩
    simp only [] at huparts
    subst huparts
    simpa using congrArg List.head? hlast
  · -- the word of a meta property is not inside a reference
    obtain ⟨ls, rs, inner, rfl, hls, hinner, hbefore⟩ :=
      Tree.exists_last_of_solids hword (by simp) ht hfirst
    obtain ⟨rfl, rfl⟩ : inner = [] ∧ word = t := by
      cases inner <;> simp_all
    have heq := hm.eq_of_holds hr (o := r.node.start) ⟨ls, _, by simpa using hparts, by
        simp [hstart, ← hbefore, hmstart, Tree.sizeAll_eq]⟩
      (Node.holds_of_parts hrparts)
    rw [← heq, hkind] at hk
    cases hk

end Site

/-! ## properties that follow references -/

section

variable {source : SourceType} {text : Text}

/-- A token directly inside a site is one of the text. -/
theorem Site.Reaches.mem_locate {s : Site} {o : Nat} {t : Token}
    (hs : (parse source text).root.Reaches s) (h : s.node.Holds o t) :
    (o, t) ∈ Token.locate 0 (tokenize text) := by
  have hmem := List.mem_map_of_mem (f := fun l => (l.1, l.2.1)) (hs.mem_leavesAll h)
  rwa [Site.map_leavesAll, tokensAll_root] at hmem

/-- The token that starts where some tokens of a text end is the next one. -/
theorem exists_cons_of_mem_locate {us vs : List Token} {t : Token}
    (htokens : tokenize text = us ++ vs)
    (ht : (Token.sizeAll us, t) ∈ Token.locate 0 (tokenize text)) : ∃ ws, vs = t :: ws := by
  obtain ⟨before, after, hsplit, hsize⟩ := Token.mem_locate_iff.mp ht
  rw [Nat.zero_add] at hsize
  rw [htokens] at hsplit
  have heq := Token.append_inj_of_sizeAll hsplit hsize fun t ht =>
    text_ne_nil_of_mem_tokenize (htokens ▸ ht)
  exact ⟨after, heq.2⟩

/-- A text without problems has a dot and a whole name somewhere exactly when its tokens do. -/
theorem followedBy_iff_tokens {us vs : List Token} {p : Text}
    (h : (parse source text).problems = []) (hp : Name.IsName p)
    (htokens : tokenize text = us ++ vs) :
    Rule.followedBy text (Token.sizeAll us) p = true ↔
      ∃ k ws, vs = ⟨.punct .dot, ['.']⟩ :: ⟨k, p⟩ :: ws := by
  have htext : text = Token.concat us ++ Token.concat vs := by
    rw [← Token.concat_append, ← htokens, concat_tokenize]
  have hlexed := lexed_tokenize text
  rw [htokens, lexed_append_iff] at hlexed
  have hok : ∀ t ∈ vs, t.kind ≠ .error := fun t ht =>
    (apart_of_ok h).1 t (by simp [htokens, ht])
  rw [Rule.followedBy_iff, ← hlexed.2.followed_iff hok hp]
  constructor
  · rintro ⟨before, after, hsplit, hsize, hend⟩
    have hback := Text.dropBytes?_append before ('.' :: p ++ after)
    rw [← hsplit, hsize, Token.sizeAll, htext, Text.dropBytes?_append] at hback
    exact ⟨after, Option.some.inj hback, hend⟩
  · rintro ⟨after, hvs, hend⟩
    exact ⟨Token.concat us, after, by rw [htext, hvs], rfl, hend⟩

/-- Whether a property follows a reference is the same in the text and in the tree: where it
does in the text, and only there, the reference itself, without parentheses, is the object of a
member access, whose dot starts where the reference ends and whose property comes right after
the dot. -/
theorem followedBy_iff_member {groups : List Group} {g : Group} {r : Reference} {p : Text}
    {t : Token} (h : (parse source text).problems = [])
    (hgroups : globalsAt (parse source text).root = .ok groups) (hg : g ∈ groups)
    (hr : r ∈ g.references) (hp : tokenize p = [t]) (hk : t.kind.isIdentifierName = true) :
    Rule.followedBy text r.site.node.span.stop p = true ↔
      ∃ m ∈ (parse source text).root.descendants, m.node.kind = .memberExpr ∧
        m.children.head? = some r.site ∧
        (∃ dot, dot.kind = .punct .dot ∧ m.node.Holds r.site.node.span.stop dot) ∧
        ∃ n ∈ m.node.children, n.kind = .propertyName ∧ n.start = r.site.node.span.stop + 1 ∧
          Token.concat (Tree.tokensAll n.parts) = p := by
  obtain rfl : Globals.collect _ _ = groups := by simpa [globalsAt, Parse.root] using hgroups
  obtain ⟨hsite, hresolve, -⟩ := Globals.of_mem_references hg hr
  have hreach := Site.mem_descendants_iff.mp hsite
  have hrefers : r.site.node.kind.refers = true := by
    rcases (Globals.resolve?_eq_some hresolve).2 with ⟨hkind, -⟩ | ⟨hkind, -⟩ <;> rw [hkind] <;> rfl
  have hname : Name.IsName p := by
    have hlexed := lexed_tokenize p
    rw [hp] at hlexed
    have htext : t.text = p := by simpa [hp, Token.concat] using concat_tokenize p
    exact htext ▸ (hlexed.isName hk).1
  obtain ⟨us, u, vs, htokens, huparts, hu, hustart, hstop⟩ :=
    hreach.exists_tokens (NodeKind.isUnit_of_refers hrefers)
  have hlexed := lexed_tokenize text
  rw [htokens, lexed_append_iff] at hlexed
  rw [← hstop, followedBy_iff_tokens h hname htokens]
  constructor
  · rintro ⟨k, ws, rfl⟩
    have hword : k.isIdentifierName = true := by
      cases hlexed.2 with
      | cons _ _ hrest =>
          exact hrest.isIdentifierName ((apart_of_ok h).1 _ (by simp [htokens])) hname
    obtain ⟨m, hm, hmember, hobject, hdot, n, hn, hproperty, hstart, hspelt⟩ :=
      hreach.of_dot h hrefers huparts hu hustart htokens rfl
        (NodeKind.not_isTrivia_of_fits (k := .propertyName) (by simp [NodeKind.fits, hword]))
    refine ⟨m, Site.mem_descendants_iff.mpr hm, hmember, hobject, ⟨_, rfl, hstop ▸ hdot⟩, n, hn,
      hproperty, ?_, ?_⟩
    · rw [hstart, hstop]
      rfl
    · simp [hspelt, Token.concat]
  · rintro ⟨m, hm, -, -, ⟨dot, hdot, hholds⟩, n, hn, hproperty, hstart, rfl⟩
    have hmreach := Site.mem_descendants_iff.mp hm
    obtain ⟨ws, rfl⟩ := exists_cons_of_mem_locate htokens (hmreach.mem_locate hholds)
    -- the dot is one byte long, so that the property is the next token
    have hspelt : dot.text = ['.'] := by
      cases hlexed.2 with
      | cons hne hscan _ => exact Mode.text_eq_of_scan_punct hne (hdot ▸ hscan)
    obtain ⟨v, hparts, -, -, hv⟩ := (hmreach.within.child hn).exists_token (by rw [hproperty]; rfl)
    have hoffset : Token.sizeAll (us ++ [u] ++ [dot]) = n.start := by
      rw [hstart, Token.sizeAll_append, Token.sizeAll_cons, Token.size, hspelt]
      rfl
    have hnext : tokenize text = (us ++ [u] ++ [dot]) ++ ws := by simpa using htokens
    obtain ⟨xs, rfl⟩ := exists_cons_of_mem_locate hnext (hoffset ▸ hv)
    refine ⟨v.kind, xs, ?_⟩
    simp [hparts, Token.concat, ← hdot, ← hspelt]

end

/-- A reserved word as a property: on a name in parentheses, as part of a longer one, and right
after a name. -/
theorem followedBy_iff_member_reserved :
    ∃ text groups, text = "(a).if; a.ifs; a.if(this)".toList ∧
      (parse .script text).problems = [] ∧ globalsAt (parse .script text).root = .ok groups ∧
      tokenize "if".toList = [⟨.keyword .ifKw, "if".toList⟩] ∧
      ∃ g ∈ groups, (g.references.map fun r => (r.site.node.span.stop,
          Rule.followedBy text r.site.node.span.stop "if".toList)) =
          [(2, false), (9, false), (16, true)] ∧
        ∀ r ∈ g.references, Rule.followedBy text r.site.node.span.stop "if".toList = true ↔
          ∃ m ∈ (parse .script text).root.descendants, m.node.kind = .memberExpr ∧
            m.children.head? = some r.site ∧
            (∃ dot, dot.kind = .punct .dot ∧ m.node.Holds r.site.node.span.stop dot) ∧
            ∃ n ∈ m.node.children, n.kind = .propertyName ∧
              n.start = r.site.node.span.stop + 1 ∧
              Token.concat (Tree.tokensAll n.parts) = "if".toList := by
  obtain ⟨text, htext⟩ : ∃ text, text = "(a).if; a.ifs; a.if(this)".toList := ⟨_, rfl⟩
  have hrun : (parse .script text).problems = [] ∧
      tokenize "if".toList = [⟨.keyword .ifKw, "if".toList⟩] ∧
      ∃ g ∈ Globals.collect (Scopes.build (parse .script text).root) (parse .script text).root,
        (g.references.map fun r => (r.site.node.span.stop,
          Rule.followedBy text r.site.node.span.stop "if".toList)) =
          [(2, false), (9, false), (16, true)] := by
    rw [htext]; decide +kernel
  obtain ⟨hok, hword, g, hg, hlisted⟩ := hrun
  exact ⟨text, _, htext, hok, if_pos rfl, hword, g, hg, hlisted, fun r hr =>
    followedBy_iff_member hok (if_pos rfl) hg hr hword rfl⟩

end FreeNames
