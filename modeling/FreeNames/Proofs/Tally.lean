import FreeNames.Proofs.Reading

/-!
# FreeNames.Proofs.Tally

Readings that add up.  A `Tally` says what is known of trees in a row: of none, of one
more token, of a node made of such trees, and of two rows one after the other.
`Tally.reading` follows with it the trees that a script gathers, and each node is
checked when it is made.

Main statement: `Tally.Lawful.ofText`, what is checked holds of every node of a text
without problems.
-/

namespace FreeNames

/-- How knowledge about trees in a row adds up. -/
structure Tally (β : Type) where
  /-- There are no trees. -/
  empty : β
  /-- Trees come after others. -/
  add : β → β → β
  /-- The next token comes after trees. -/
  take : Sight → β → Option β
  /-- Trees are made into one node. -/
  wrap : NodeKind → β → β
  /-- A node may be made of the trees. -/
  closes : NodeKind → β → Bool
  /-- What is known of trees of which one of two things is known. -/
  join : β → β → Option β
  /-- The first says at least as much as the second. -/
  le : β → β → Bool
  /-- What stays known through the items of a list. -/
  widen : β → β
  /-- What the trees are that a production goes on after. -/
  needs : Production → β
  /-- What the trees are that a production adds, or makes of those it goes on after. -/
  gives : Production → β

/-- What is known about the trees of the open group or node. -/
structure Count (β : Type) where
  /-- There were no trees before. -/
  bare : Bool
  /-- What the trees are that have been added to those before. -/
  sum : Option β
  /-- All nodes passed their check. -/
  sound : Bool

namespace Tally

variable {β : Type} (T : Tally β)

def countLe (g h : Count β) : Bool :=
  (!h.bare || g.bare) && (h.sum.all fun c => g.sum.any fun b => T.le b c) && (!h.sound || g.sound)

/-- Following what trees add up to. -/
def reading : Reading (Count β) where
  join g h := ⟨g.bare && h.bare, do T.join (← g.sum) (← h.sum), g.sound && h.sound⟩
  le := T.countLe
  seen _ g := g
  take σ g := { g with sum := if σ.left then g.sum.bind (T.take σ) else none }
  opened := ⟨true, some T.empty, true⟩
  group g h := ⟨g.bare, do return T.add (← g.sum) (← h.sum), g.sound && h.sound⟩
  enclose k g h :=
    ⟨g.bare, if g.bare then h.sum.map (T.wrap k) else none,
      g.bare && h.sum.any (T.closes k) && h.sound⟩
  node k g h :=
    ⟨g.bare, do return T.add (← g.sum) (T.wrap k (← h.sum)),
      g.sound && (h.sum.any (T.closes k) && h.sound)⟩
  needs p := ⟨p.continues, some (if p.continues then T.needs p else T.empty), true⟩
  gives p := ⟨p.continues, some (T.gives p), true⟩
  called p g :=
    if p.continues then
      if T.countLe g ⟨true, some (T.needs p), true⟩ then ⟨true, some (T.gives p), true⟩
      else ⟨false, none, false⟩
    else if g.sound then ⟨g.bare, g.sum.map (T.add · (T.gives p)), true⟩
    else ⟨false, none, false⟩
  widen g := { g with sum := g.sum.map T.widen }
  lost := ⟨false, none, false⟩

/-- A tally that is right: what is known of trees is true of them, in the order of the
source, and nodes that pass their check are good. -/
structure Lawful (Means : β → List Tree → Prop) (Good : NodeKind → List Tree → Prop) :
    Prop where
  empty : Means T.empty []
  add {b c : β} {ts us : List Tree} : Means b ts → Means c us → Means (T.add b c) (ts ++ us)
  take {start d : Draft} {σ : Sight} {b c : β} {ts : List Tree} {l : Lexeme} {ls : List Lexeme} :
    σ.Fits true start d → d.rest = l :: ls → l.token.isTrivia = false → T.take σ b = some c →
      Means b ts → Means c (ts ++ [.leaf l.token])
  wrap {b : β} (k : NodeKind) {parts : List Tree} :
    Means b (Tree.solids parts) → Means (T.wrap k b) [.node k parts]
  closes {b : β} {k : NodeKind} {parts : List Tree} :
    T.closes k b = true → Means b (Tree.solids parts) → Good k parts
  join {b c e : β} {ts : List Tree} : T.join b c = some e → Means b ts ∨ Means c ts → Means e ts
  mono {b c : β} {ts : List Tree} : T.le b c = true → Means b ts → Means c ts

end Tally

/-! ## what is known is true -/

/-- What is known is true of a draft, whose open group or node had the trees of `base`
before. -/
structure Count.Fits {β : Type} (Means : β → List Tree → Prop)
    (Good : NodeKind → List Tree → Prop) (base : List Tree) (g : Count β) (d : Draft) : Prop where
  bare : g.bare = true → base = []
  sum (b : β) : g.sum = some b → ∃ ts, d.row = ts.reverse ++ base ∧ Means b ts
  sound : g.sound = true → d.Every (Tree.All Good)

section

variable {β : Type} {T : Tally β} {Means : β → List Tree → Prop}
  {Good : NodeKind → List Tree → Prop} {base : List Tree} {g h : Count β} {d e start : Draft}
  {σ : Sight}

namespace Count.Fits

theorem lost (base : List Tree) (d : Draft) :
    Fits Means Good base (⟨false, none, false⟩ : Count β) d := ⟨nofun, nofun, nofun⟩

theorem mono (hT : T.Lawful Means Good) (hg : g.Fits Means Good base d)
    (hle : T.countLe g h = true) : h.Fits Means Good base d := by
  simp only [Tally.countLe, Bool.and_eq_true, Bool.or_eq_true, Bool.not_eq_true'] at hle
  obtain ⟨⟨hbare, hsum⟩, hsound⟩ := hle
  refine ⟨fun hh => hg.bare (hbare.resolve_left (by simp [hh])), fun c hc => ?_,
    fun hh => hg.sound (hsound.resolve_left (by simp [hh]))⟩
  rw [hc, Option.all_some] at hsum
  obtain ⟨b, hb, hle⟩ := Option.any_eq_true _ _ |>.mp hsum
  obtain ⟨ts, hts, hmeans⟩ := hg.sum b hb
  exact ⟨ts, hts, hT.mono hle hmeans⟩

theorem take (hT : T.Lawful Means Good) (hg : g.Fits Means Good base d) (hsifted : d.Sifted)
    (hσ : σ.Fits true start d) : (T.reading.take σ g).Fits Means Good base d.take where
  bare := hg.bare
  sum c hc := by
    simp only [Tally.reading, Option.ite_none_right_eq_some, Option.bind_eq_some_iff] at hc
    obtain ⟨hleft, b, hb, htake⟩ := hc
    obtain ⟨l, ls, hrest⟩ := List.exists_cons_of_ne_nil (hσ.left hleft)
    have htrivia := hsifted.of_cons hrest
    obtain ⟨ts, hts, hmeans⟩ := hg.sum b hb
    refine ⟨ts ++ [.leaf l.token], ?_, hT.take hσ hrest htrivia htake hmeans⟩
    rw [Draft.row_take hrest htrivia, hts]
    simp
  sound hs := (hg.sound hs).take .leaf

/-- All trees of a draft, in the order of the source. -/
theorem means_solids {b : β} (hh : h.Fits Means Good [] e) (hb : h.sum = some b) :
    Means b (Tree.solids e.trees.reverse) := by
  obtain ⟨ts, hts, hmeans⟩ := hh.sum b hb
  rwa [Tree.solids_reverse, ← Draft.row, hts, List.append_nil, List.reverse_reverse]

/-- Trees that passed the check are the parts of a good node. -/
theorem all_wrap (hT : T.Lawful Means Good) {k : NodeKind} (hh : h.Fits Means Good [] e)
    (hcheck : h.sum.any (T.closes k) = true) (hsound : h.sound = true) :
    ((e.wrap k).log .finish).Every (Tree.All Good) := by
  obtain ⟨b, hb, hcloses⟩ := Option.any_eq_true _ _ |>.mp hcheck
  exact (hh.sound hsound).all_wrap (hT.closes hcloses (hh.means_solids hb))

theorem group (hT : T.Lawful Means Good) (hg : g.Fits Means Good base d)
    (hh : h.Fits Means Good [] e) :
    (T.reading.group g h).Fits Means Good base (e.rejoin d.placeTrivia) where
  bare := hg.bare
  sum b hb := by
    simp only [Tally.reading, Option.bind_eq_bind, Option.bind_eq_some_iff, Option.pure_def,
      Option.some.injEq] at hb
    obtain ⟨b, hb, c, hc, rfl⟩ := hb
    obtain ⟨ts, hts, hmeans⟩ := hg.sum b hb
    obtain ⟨us, hus, husMeans⟩ := hh.sum c hc
    refine ⟨ts ++ us, ?_, hT.add hmeans husMeans⟩
    rw [Draft.row_rejoin, Draft.row_placeTrivia, hts, hus]
    simp
  sound hs := by
    obtain ⟨hsg, hsh⟩ := (Bool.and_eq_true ..).mp hs
    exact (hh.sound hsh).rejoin ((hg.sound hsg).placeTrivia .leaf)

theorem enclose (hT : T.Lawful Means Good) (hg : g.Fits Means Good base d)
    (hh : h.Fits Means Good base e) (k : NodeKind) :
    (T.reading.enclose k g h).Fits Means Good base ((e.wrap k).log .finish) where
  bare := hg.bare
  sum c hc := by
    simp only [Tally.reading, Option.ite_none_right_eq_some, Option.map_eq_some_iff] at hc
    obtain ⟨hbare, b, hb, rfl⟩ := hc
    obtain rfl := hg.bare hbare
    exact ⟨[.node k e.trees.reverse], rfl, hT.wrap k (hh.means_solids hb)⟩
  sound hs := by
    simp only [Tally.reading, Bool.and_eq_true] at hs
    obtain ⟨⟨hbare, hcheck⟩, hsound⟩ := hs
    obtain rfl := hg.bare hbare
    exact hh.all_wrap hT hcheck hsound

theorem node (hT : T.Lawful Means Good) (hg : g.Fits Means Good base d)
    (hh : h.Fits Means Good [] e) (k : NodeKind) :
    (T.reading.node k g h).Fits Means Good base
      (((e.wrap k).log .finish).rejoin d.placeTrivia) where
  bare := hg.bare
  sum b hb := by
    simp only [Tally.reading, Option.bind_eq_bind, Option.bind_eq_some_iff, Option.pure_def,
      Option.some.injEq] at hb
    obtain ⟨b, hb, c, hc, rfl⟩ := hb
    obtain ⟨ts, hts, hmeans⟩ := hg.sum b hb
    refine ⟨ts ++ [.node k e.trees.reverse], ?_,
      hT.add hmeans (hT.wrap k (hh.means_solids hc))⟩
    rw [Draft.row_rejoin, Draft.row_placeTrivia, Draft.row_log, Draft.row_wrap, hts]
    simp
  sound hs := by
    simp only [Tally.reading, Bool.and_eq_true] at hs
    obtain ⟨hsg, hcheck, hsound⟩ := hs
    exact (hh.all_wrap hT hcheck hsound).rejoin ((hg.sound hsg).placeTrivia .leaf)

/-- All trees that are there count as those before. -/
theorem needs (hT : T.Lawful Means Good) {p : Production} (hp : p.continues = false)
    (hd : d.Every (Tree.All Good)) : (T.reading.needs p).Fits Means Good d.row d := by
  refine ⟨fun hbare => ?_, fun b hb => ?_, fun _ => hd⟩
  · simp [Tally.reading, hp] at hbare
  · simp only [Tally.reading, hp, Bool.false_eq_true, if_false, Option.some.injEq] at hb
    exact ⟨[], rfl, hb ▸ hT.empty⟩

theorem called (hT : T.Lawful Means Good) {p : Production} (hg : g.Fits Means Good base d)
    (hp : ∀ base, (T.reading.needs p).Fits Means Good base d →
      (T.reading.gives p).Fits Means Good base e) :
    (T.reading.called p g).Fits Means Good base e := by
  cases hcontinues : p.continues with
  | true =>
      simp only [Tally.reading, hcontinues, if_true] at hp ⊢
      split
      · next hle => exact hp base (hg.mono hT hle)
      · exact lost base e
  | false =>
      by_cases hsound : g.sound = true
      · have hgives := hp d.row (.needs hT hcontinues (hg.sound hsound))
        simp only [Tally.reading, hcontinues, hsound, if_true, Bool.false_eq_true, if_false]
        refine ⟨hg.bare, fun c hc => ?_, fun _ => hgives.sound rfl⟩
        obtain ⟨b, hb, rfl⟩ := Option.map_eq_some_iff.mp hc
        obtain ⟨ts, hts, hmeans⟩ := hg.sum b hb
        obtain ⟨us, hus, husMeans⟩ := hgives.sum _ rfl
        exact ⟨ts ++ us, by rw [hus, hts]; simp, hT.add hmeans husMeans⟩
      · simp only [Tally.reading, hcontinues, hsound, Bool.false_eq_true, if_false]
        exact lost base e

end Count.Fits

namespace Tally.Lawful

/-- What adds up is true of the trees that a script gathers. -/
theorem sound (hT : T.Lawful Means Good) : T.reading.Sound (Count.Fits Means Good) where
  join {base g h d} hgh := by
    refine ⟨fun hb => ?_, fun c hc => ?_, fun hs => ?_⟩
    · obtain ⟨hg, hh⟩ := (Bool.and_eq_true ..).mp hb
      exact hgh.elim (·.bare hg) (·.bare hh)
    · simp only [reading, Option.bind_eq_bind, Option.bind_eq_some_iff] at hc
      obtain ⟨b, hb, b', hb', hc⟩ := hc
      rcases hgh with hg | hh
      · obtain ⟨ts, hts, hmeans⟩ := hg.sum b hb
        exact ⟨ts, hts, hT.join hc (Or.inl hmeans)⟩
      · obtain ⟨ts, hts, hmeans⟩ := hh.sum b' hb'
        exact ⟨ts, hts, hT.join hc (Or.inr hmeans)⟩
    · obtain ⟨hg, hh⟩ := (Bool.and_eq_true ..).mp hs
      exact hgh.elim (·.sound hg) (·.sound hh)
  mono hle hg := hg.mono hT hle
  lost := Count.Fits.lost
  log _ hg := ⟨hg.bare, hg.sum, hg.sound⟩
  seen _ hg := hg
  take hsifted hσ hg := hg.take hT hsifted hσ
  opened {d} h := by
    refine ⟨fun _ => rfl, fun b hb => ⟨[], by simp [Draft.row, h], ?_⟩,
      fun _ => by simp [Draft.Every, h]⟩
    obtain rfl := Option.some.inj hb
    exact hT.empty
  group hg hh := hg.group hT hh
  enclose k hg hh := hg.enclose hT hh k
  node k hg hh := hg.node hT hh k
  called _ hp hg := hg.called hT hp

/-! ## the grammar -/

variable {S : Spelling}

/-- The root and all nodes below it have passed their checks. -/
theorem ofText (hT : T.Lawful Means Good) (hholds : T.reading.Holds (Count.Fits Means Good) grammar)
    {source : SourceType} {b : β}
    (hitem : (((S.item source).read T.reading {} ⟨true, some b, true⟩).all fun g =>
      T.countLe g ⟨true, some b, true⟩) = true)
    (hopened : T.le T.empty b = true) {text : Text} (h : (parse source text).problems = []) :
    (∀ p ∈ (parse source text).parts, p.All Good) ∧
      Means b (Tree.solids (parse source text).parts) := by
  have hle : T.countLe T.reading.opened ⟨true, some b, true⟩ = true := by
    simp [countLe, reading, hopened]
  obtain ⟨d, hd, hfits⟩ := hT.sound.ofText S hholds hitem hle h
  have hall := (hfits.sound rfl).placeTrivia .leaf
  have hrow : d.placeTrivia.row = d.row := d.row_placeTrivia
  obtain ⟨ts, hts, hmeans⟩ := hfits.sum b rfl
  rw [← hd] at hall hrow
  refine ⟨fun p hp => hall p (List.mem_reverse.mp hp), ?_⟩
  have hparts : (parse source text).parts = (Draft.ofText source text).trees.reverse := rfl
  rwa [hparts, Tree.solids_reverse, ← Draft.row, hrow, hts, List.append_nil, List.reverse_reverse]

end Tally.Lawful

end

end FreeNames
