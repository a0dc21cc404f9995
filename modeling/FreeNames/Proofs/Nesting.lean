import FreeNames.Proofs.Foresight

/-!
# FreeNames.Proofs.Nesting

What is open at a point of a text.  The lexer keeps the open braces in a stack, and
pops one wherever a brace closes, also if none is open.  A `Turn` opens or closes
something; what is innermost after some turns is what was opened and then followed by
turns that close all they open and nothing else (`Turn.Innermost`).  The stack holds
exactly that (`Turn.head?_foldl_step_iff`).

A token turns by its first character and its kind: a chunk of a template that starts
with the brace of a substitution and opens another one first closes, then opens.

Main statement: `tokenize_closing_brace`.
-/

namespace FreeNames

/-! ## turns -/

/-- Something of some sort is opened, or what was opened last is closed. -/
inductive Turn (α : Type) where
  | enter (a : α)
  | leave

namespace Turn

variable {α : Type} {a : α} {s : List α} {ts us : List (Turn α)}

/-- What is open after a turn, innermost first.  Where nothing is open, nothing is
closed. -/
def step (s : List α) : Turn α → List α
  | enter a => a :: s
  | leave => s.tail

/-- Turns that close all that they open, and nothing else. -/
inductive Even : List (Turn α) → Prop
  | nil : Even []
  | pair (a : α) {inner rest : List (Turn α)} (hinner : Even inner) (hrest : Even rest) :
    Even (.enter a :: inner ++ .leave :: rest)

/-- What is innermost of what some turns leave open. -/
def Innermost (a : α) (ts : List (Turn α)) : Prop :=
  ∃ outer inner, ts = outer ++ .enter a :: inner ∧ Even inner

theorem Even.append (ht : Even ts) (hu : Even us) : Even (ts ++ us) := by
  induction ht with
  | nil => exact hu
  | pair a hinner _ _ ih =>
      rw [List.append_assoc, List.cons_append]
      exact .pair a hinner ih

theorem Even.foldl_step (h : Even ts) (s : List α) : ts.foldl step s = s := by
  induction h generalizing s with
  | nil => rfl
  | pair a _ _ ihinner ihrest =>
      rw [List.cons_append, List.foldl_cons, List.foldl_append, ihinner, List.foldl_cons, ihrest]
      rfl

/-- What is open was opened, and all that was opened after it is closed. -/
theorem exists_of_foldl_step (h : ts.foldl step [] = a :: s) :
    ∃ outer inner, ts = outer ++ .enter a :: inner ∧ outer.foldl step [] = s ∧ Even inner := by
  -- to close something leads back to where it was opened, not to the turn before
  induction hn : ts.length using Nat.strongRecOn generalizing ts a s with
  | ind n ih =>
      subst hn
      rcases List.eq_nil_or_concat ts with rfl | ⟨us, t, rfl⟩
      · simp at h
      rw [List.concat_eq_append, List.foldl_append, List.foldl_cons, List.foldl_nil] at h
      rw [List.concat_eq_append]
      cases t with
      | enter b =>
          obtain ⟨rfl, rfl⟩ := List.cons.inj h
          exact ⟨us, [], rfl, rfl, .nil⟩
      | leave =>
          obtain ⟨b, hb⟩ : ∃ b, us.foldl step [] = b :: a :: s := by
            cases hu : us.foldl step [] with
            | nil => rw [hu] at h; cases h
            | cons b rest =>
                rw [hu] at h
                exact ⟨b, congrArg (b :: ·) h⟩
          obtain ⟨outer, inner, rfl, houter, hinner⟩ := ih us.length (by simp) hb rfl
          obtain ⟨outer', inner', rfl, houter', hinner'⟩ :=
            ih outer.length (by simp) houter rfl
          refine ⟨outer', inner' ++ (.enter b :: inner ++ [.leave]), by simp, houter', ?_⟩
          exact hinner'.append (.pair b hinner .nil)

/-- The top of the stack is what is innermost. -/
theorem head?_foldl_step_iff : (ts.foldl step []).head? = some a ↔ Innermost a ts := by
  constructor
  · intro h
    obtain ⟨s, hs⟩ := List.head?_eq_some_iff.mp h
    obtain ⟨outer, inner, hts, -, hinner⟩ := exists_of_foldl_step hs
    exact ⟨outer, inner, hts, hinner⟩
  · rintro ⟨outer, inner, rfl, hinner⟩
    rw [List.foldl_append, List.foldl_cons, hinner.foldl_step]
    rfl

end Turn

/-! ## the braces of tokens -/

/-- What a token opens: a block, or a substitution in a template. -/
def TokenKind.opens? : TokenKind → Option Brace
  | .punct .lBrace => some .block
  | .templateHead => some .template
  | _ => none

/-- How a token turns: it closes if it starts with a closing brace, and then opens. -/
def Token.turns (t : Token) : List (Turn Brace) :=
  (if t.text.head? = some '\x7d' then [.leave] else []) ++ (t.kind.opens?.map .enter).toList

namespace Mode

theorem bracesAfter_eq (braces : List Brace) (t : Token) :
    bracesAfter braces t = t.turns.foldl Turn.step braces := by
  have hclose : (if t.text.head? = some '\x7d' then [.leave] else []).foldl Turn.step braces =
      if t.text.head? = some '\x7d' then braces.tail else braces := by
    split <;> rfl
  rw [Token.turns, List.foldl_append, hclose]
  obtain ⟨kind, text⟩ := t
  cases kind with
  | punct p => cases p <;> rfl
  | _ => rfl

/-- How a closing brace is read. -/
theorem scan_closing (m : Mode) (first : Bool) (cs : Text) :
    m.scan first ('\x7d' :: cs) =
      if m.braces.head? = some .template then scanTemplate cs else (.punct .rBrace, 1) := by
  have hnumber : Number.length ('\x7d' :: cs) = 0 := rfl
  have hpunct : scanPunct ('\x7d' :: cs) = (.punct .rBrace, 1) := rfl
  by_cases htop : m.braces.head? = some .template
  · rw [if_pos htop, scan]
    simp [Name.isBlank, htop]
  · rw [if_neg htop, scan]
    simp [Name.isBlank, Name.isStartChar, htop, hnumber, hpunct]

end Mode

/-- Trivia does not start with a closing brace, so it does not turn. -/
theorem Lexed.turns_trivia {m : Mode} {first : Bool} {t : Token} {ts : List Token}
    (h : Lexed m first (t :: ts)) (ht : t.isTrivia = true) : t.turns = [] := by
  have hhead : t.text.head? ≠ some '\x7d' := by
    intro hhead
    obtain ⟨cs, hcs⟩ := List.head?_eq_some_iff.mp hhead
    cases h with
    | cons _ hscan _ =>
        rw [hcs, List.cons_append, Mode.scan_closing] at hscan
        have hkind : _ = t.kind := congrArg Prod.fst hscan
        rw [Token.isTrivia, ← hkind] at ht
        split at ht
        · rcases Delimited.template_kind (cs ++ Token.concat ts) with hk | hk | hk <;>
            simp [Mode.scanTemplate, hk, TokenKind.isTrivia] at ht
        · simp [TokenKind.isTrivia] at ht
  rw [Token.turns, if_neg hhead, List.nil_append]
  obtain ⟨kind, text⟩ := t
  cases kind with
  | trivia u => rfl
  | _ => cases ht

/-- The braces that are open after some tokens are those that their turns leave open. -/
theorem Lexed.braces_foldl_after {m : Mode} {first : Bool} {ts us : List Token}
    (h : Lexed m first (ts ++ us)) :
    (ts.foldl Mode.after m).braces = (ts.flatMap Token.turns).foldl Turn.step m.braces := by
  induction ts generalizing m first with
  | nil => rfl
  | cons t ts ih =>
      have hstep : (m.after t).braces = t.turns.foldl Turn.step m.braces := by
        by_cases ht : t.isTrivia = true
        · rw [h.turns_trivia ht, Mode.after, if_pos ht]
          rfl
        · rw [Mode.after, if_neg ht, Mode.bracesAfter_eq]
      have hrest : Lexed (m.after t) false (ts ++ us) := by
        cases h with
        | cons _ _ rest => exact rest
      rw [List.foldl_cons, ih hrest, List.flatMap_cons, List.foldl_append, hstep]

/-! ## chunks of templates -/

/-- Every backslash has the character that it escapes, so what comes next is not
escaped. -/
inductive Unescaped : Text → Prop
  | nil : Unescaped []
  | plain {c : Char} {cs : Text} (hc : c ≠ '\\') (hcs : Unescaped cs) : Unescaped (c :: cs)
  | escape (c : Char) {cs : Text} (hcs : Unescaped cs) : Unescaped ('\\' :: c :: cs)

/-- A mark stands in a text after some characters, and is not escaped. -/
def MarkAt (mark front text : Text) : Prop := Unescaped front ∧ front ++ mark <+: text

/-- The marks that end a chunk of a template, with what they make of it. -/
def chunkMarks : List (TokenKind × Text) :=
  [(.templateTail, ['\x60']), (.templateHead, ['$', '\x7b'])]

theorem mem_chunkMarks_iff {kind : TokenKind} {mark : Text} :
    (kind, mark) ∈ chunkMarks ↔ kind = .templateTail ∧ mark = ['\x60'] ∨
      kind = .templateHead ∧ mark = ['$', '\x7b'] := by
  simp [chunkMarks]

theorem not_markAt_nil {kind : TokenKind} {mark front : Text}
    (hmark : (kind, mark) ∈ chunkMarks) : ¬MarkAt mark front [] := by
  rintro ⟨-, hprefix⟩
  have hnil := List.prefix_nil.mp hprefix
  rcases mem_chunkMarks_iff.mp hmark with ⟨-, rfl⟩ | ⟨-, rfl⟩ <;> simp at hnil

/-- After some characters stands the first mark that ends a chunk. -/
structure FirstMark (kind : TokenKind) (mark front text : Text) : Prop where
  ends : (kind, mark) ∈ chunkMarks
  here : MarkAt mark front text
  first (kind' : TokenKind) (mark' front' : Text) :
    (kind', mark') ∈ chunkMarks → MarkAt mark' front' text → front.length ≤ front'.length

/-- No mark ends a chunk. -/
def NoMark (text : Text) : Prop :=
  ∀ kind mark, (kind, mark) ∈ chunkMarks → ∀ front, ¬MarkAt mark front text

/-- No mark starts with a backslash, so an escape lies in front of all marks. -/
theorem markAt_escape_iff {kind : TokenKind} {mark front cs : Text} {c : Char}
    (hmark : (kind, mark) ∈ chunkMarks) :
    MarkAt mark front ('\\' :: c :: cs) ↔
      ∃ front', front = '\\' :: c :: front' ∧ MarkAt mark front' cs := by
  constructor
  · rintro ⟨hfront, hprefix⟩
    cases hfront with
    | nil => rcases mem_chunkMarks_iff.mp hmark with ⟨-, rfl⟩ | ⟨-, rfl⟩ <;> simp at hprefix
    | plain hc _ => exact absurd (List.cons_prefix_cons.mp hprefix).1 hc
    | escape d hcs =>
        rw [List.cons_append, List.cons_append, List.cons_prefix_cons,
          List.cons_prefix_cons] at hprefix
        obtain ⟨-, rfl, hprefix⟩ := hprefix
        exact ⟨_, rfl, hcs, hprefix⟩
  · rintro ⟨front', rfl, hfront, hprefix⟩
    refine ⟨.escape c hfront, ?_⟩
    simpa [List.cons_prefix_cons] using hprefix

/-- A character that starts no mark and escapes nothing lies in front of all marks. -/
theorem markAt_cons_iff {mark front cs : Text} {c : Char} (hc : ¬mark <+: c :: cs)
    (hplain : c = '\\' → cs = []) :
    MarkAt mark front (c :: cs) ↔
      ∃ front', front = c :: front' ∧ c ≠ '\\' ∧ MarkAt mark front' cs := by
  constructor
  · rintro ⟨hfront, hprefix⟩
    cases hfront with
    | nil => exact absurd hprefix hc
    | plain hd hcs =>
        rw [List.cons_append, List.cons_prefix_cons] at hprefix
        obtain ⟨rfl, hprefix⟩ := hprefix
        exact ⟨_, rfl, hd, hcs, hprefix⟩
    | escape d hcs =>
        rw [List.cons_append, List.cons_prefix_cons] at hprefix
        obtain ⟨rfl, hprefix⟩ := hprefix
        rw [hplain rfl] at hprefix
        simp at hprefix
  · rintro ⟨front', rfl, hne, hfront, hprefix⟩
    exact ⟨.plain hne hfront, by simpa [List.cons_prefix_cons] using hprefix⟩

/-- Characters that lie in front of all marks lie in front of the first. -/
theorem FirstMark.prepend {kind : TokenKind} {mark front cs x : Text}
    (h : FirstMark kind mark front cs) (hx : MarkAt mark (x ++ front) (x ++ cs))
    (hshift : ∀ kind' mark' front', (kind', mark') ∈ chunkMarks →
      MarkAt mark' front' (x ++ cs) → ∃ front'', front' = x ++ front'' ∧ MarkAt mark' front'' cs) :
    FirstMark kind mark (x ++ front) (x ++ cs) where
  ends := h.ends
  here := hx
  first kind' mark' front' hmark hat := by
    obtain ⟨front'', rfl, hat'⟩ := hshift kind' mark' front' hmark hat
    have hle := h.first kind' mark' front'' hmark hat'
    simp only [List.length_append]
    omega

/-- A chunk ends with the first mark that ends one, or not at all. -/
theorem Delimited.template_spec (cs : Text) :
    (∃ mark front, FirstMark (template cs).1 mark front cs ∧
      (template cs).2 = (front ++ mark).length) ∨
    NoMark cs ∧ template cs = (.error, cs.length) := by
  fun_induction template cs with
  | case1 => exact Or.inr ⟨fun _ _ hmark _ => not_markAt_nil hmark, rfl⟩
  | case2 c cs kind n hn ih =>
      rw [hn] at ih
      rcases ih with ⟨mark, front, hfirst, hlen⟩ | ⟨hnone, heq⟩
      · refine Or.inl ⟨mark, '\\' :: c :: front, ?_, by simpa using hlen⟩
        refine hfirst.prepend (x := ['\\', c]) ?_ fun kind' mark' front' hmark hat => ?_
        · exact (markAt_escape_iff hfirst.ends).mpr ⟨front, rfl, hfirst.here⟩
        · exact (markAt_escape_iff hmark).mp hat
      · obtain ⟨rfl, rfl⟩ := Prod.mk.inj heq
        refine Or.inr ⟨fun kind' mark' hmark front' hat => ?_, rfl⟩
        obtain ⟨front'', -, hat⟩ := (markAt_escape_iff hmark).mp hat
        exact hnone kind' mark' hmark front'' hat
  | case3 cs =>
      refine Or.inl ⟨['\x60'], [], ⟨by simp [chunkMarks], ⟨.nil, by simp⟩, ?_⟩, rfl⟩
      exact fun _ _ _ _ _ => Nat.zero_le _
  | case4 cs =>
      refine Or.inl ⟨['$', '\x7b'], [], ⟨by simp [chunkMarks], ⟨.nil, by simp⟩, ?_⟩, rfl⟩
      exact fun _ _ _ _ _ => Nat.zero_le _
  | case5 c cs hback htick hbrace kind n hn ih =>
      have hstart (kind' : TokenKind) (mark' : Text) (hmark : (kind', mark') ∈ chunkMarks) :
          ¬mark' <+: c :: cs := by
        intro hprefix
        rcases mem_chunkMarks_iff.mp hmark with ⟨-, rfl⟩ | ⟨-, rfl⟩
        · exact htick (List.cons_prefix_cons.mp hprefix).1.symm
        · obtain ⟨rest, hrest⟩ := hprefix
          obtain ⟨rfl, rfl⟩ := List.cons.inj hrest
          exact hbrace rest rfl rfl
      have hplain : c = '\\' → cs = [] := by
        rintro rfl
        cases cs with
        | nil => rfl
        | cons d ds => exact absurd rfl (hback d ds rfl)
      have hshift (kind' : TokenKind) (mark' front' : Text) (hmark : (kind', mark') ∈ chunkMarks)
          (hat : MarkAt mark' front' (c :: cs)) :
          ∃ front'', front' = c :: front'' ∧ MarkAt mark' front'' cs := by
        obtain ⟨front'', rfl, -, hat⟩ := (markAt_cons_iff (hstart _ _ hmark) hplain).mp hat
        exact ⟨front'', rfl, hat⟩
      rw [hn] at ih
      rcases ih with ⟨mark, front, hfirst, hlen⟩ | ⟨hnone, heq⟩
      · refine Or.inl ⟨mark, c :: front, ?_, by simpa using hlen⟩
        refine hfirst.prepend (x := [c]) ?_ hshift
        refine (markAt_cons_iff (hstart _ _ hfirst.ends) hplain).mpr ⟨front, rfl, ?_, hfirst.here⟩
        exact fun hc => not_markAt_nil hfirst.ends (hplain hc ▸ hfirst.here)
      · obtain ⟨rfl, rfl⟩ := Prod.mk.inj heq
        refine Or.inr ⟨fun kind' mark' hmark front' hat => ?_, rfl⟩
        obtain ⟨front'', -, hat⟩ := hshift kind' mark' front' hmark hat
        exact hnone kind' mark' hmark front'' hat

/-! ## closing braces -/

/-- Tokens that spell nothing are none. -/
theorem Lexed.eq_nil_of_concat {m : Mode} {first : Bool} {ts : List Token} (h : Lexed m first ts)
    (hnil : Token.concat ts = []) : ts = [] := by
  cases h with
  | nil => rfl
  | cons hne _ _ =>
      rw [Token.concat_cons] at hnil
      exact absurd (List.append_eq_nil_iff.mp hnil).1 hne

/-- The token that goes on with a template. -/
theorem Lexed.continuation {m : Mode} {first : Bool} {t : Token} {cs : Text} {after : List Token}
    (h : Lexed m first (t :: after)) (hcs : t.text = '\x7d' :: cs)
    (htop : m.braces.head? = some .template) :
    (∃ kind mark front, FirstMark kind mark front (cs ++ Token.concat after) ∧
      t = ⟨kind, '\x7d' :: front ++ mark⟩) ∨
    NoMark (cs ++ Token.concat after) ∧ t.kind = .error ∧ after = [] := by
  cases h with
  | cons _ hscan hlater =>
      rw [hcs, List.cons_append, Mode.scan_closing, if_pos htop] at hscan
      obtain ⟨hkind, hlen⟩ := Prod.mk.inj hscan
      rw [List.length_cons, Nat.add_comm, Nat.add_right_cancel_iff] at hlen
      rcases Delimited.template_spec (cs ++ Token.concat after) with
        ⟨mark, front, hfirst, hmark⟩ | ⟨hnone, herror⟩
      · refine Or.inl ⟨_, mark, front, hfirst, ?_⟩
        have hfront : front ++ mark = cs :=
          (List.prefix_of_prefix_length_le hfirst.here.2 (List.prefix_append _ _)
            (by omega)).eq_of_length (by omega)
        rw [List.cons_append, hfront, ← hcs, hkind]
      · rw [herror] at hkind hlen
        refine Or.inr ⟨hnone, hkind.symm, hlater.eq_nil_of_concat ?_⟩
        rw [List.length_append] at hlen
        exact List.length_eq_zero_iff.mp (by omega)

/-- A token that starts with a closing brace is one by itself exactly where no
substitution is innermost of what is open: either a brace of a block is, or nothing is
open.  Where a substitution is innermost the token goes on with its template.  It ends
with the first mark that ends a chunk and is not escaped, or it is an error that
reaches the end of the text. -/
theorem tokenize_closing_brace (text : Text) (before after : List Token) (t : Token)
    (h : tokenize text = before ++ t :: after) (hclosing : t.text.head? = some '\x7d') :
    (t.kind = .punct .rBrace ↔
      Turn.Innermost .block (before.flatMap Token.turns) ∨
        ∀ b, ¬Turn.Innermost b (before.flatMap Token.turns)) ∧
    (Turn.Innermost .template (before.flatMap Token.turns) →
      (∃ kind mark front,
        FirstMark kind mark front (t.text.tail ++ Token.concat after) ∧
          t = ⟨kind, '\x7d' :: front ++ mark⟩) ∨
      NoMark (t.text.tail ++ Token.concat after) ∧ t.kind = .error ∧ after = []) := by
  have hlexed := h ▸ lexed_tokenize text
  have hbraces := hlexed.braces_foldl_after
  obtain ⟨cs, hcs⟩ := List.head?_eq_some_iff.mp hclosing
  have hrest := (lexed_append_iff.mp hlexed).2
  generalize before.foldl Mode.after .initial = m at hbraces hrest
  have htop (b : Brace) :
      m.braces.head? = some b ↔ Turn.Innermost b (before.flatMap Token.turns) := by
    rw [hbraces]
    exact Turn.head?_foldl_step_iff
  rw [hcs, List.tail_cons]
  by_cases htemplate : m.braces.head? = some .template
  · have hnext := hrest.continuation hcs htemplate
    refine ⟨iff_of_false (fun hk => ?_) ?_, fun _ => hnext⟩
    · rcases hnext with ⟨kind, mark, front, hfirst, rfl⟩ | ⟨-, herror, -⟩
      · rcases mem_chunkMarks_iff.mp hfirst.ends with ⟨rfl, -⟩ | ⟨rfl, -⟩ <;> simp at hk
      · simp [hk] at herror
    · rw [← htop, not_or, htemplate]
      exact ⟨by simp, fun hnone => hnone .template ((htop _).mp htemplate)⟩
  · refine ⟨iff_of_true ?_ ?_, fun hinner => absurd ((htop _).mpr hinner) htemplate⟩
    · cases hrest with
      | cons _ hscan _ =>
          rw [hcs, List.cons_append, Mode.scan_closing, if_neg htemplate] at hscan
          exact (congrArg Prod.fst hscan).symm
    · simp only [← htop]
      rcases hm : m.braces.head? with _ | (_ | _)
      · simp
      · simp
      · exact absurd hm htemplate

/-- A template inside an object inside a substitution; the outer template goes on after
both and holds a backtick that is escaped. -/
theorem tokenize_closing_brace_nested :
    let text : Text := "\x60a$\x7b\x7bb: \x60$\x7bc\x7d\x60\x7d\x7d$\\\x60d\x60 \x7d".toList
    let before := (tokenize text).take 9
    let t : Token := ⟨.templateTail, "\x7d$\\\x60d\x60".toList⟩
    tokenize text = before ++ t :: (tokenize text).drop 10 ∧
      Turn.Innermost .template (before.flatMap Token.turns) ∧
      ¬(Turn.Innermost .block (before.flatMap Token.turns) ∨
        ∀ b, ¬Turn.Innermost b (before.flatMap Token.turns)) ∧
      ∃ kind mark front,
        FirstMark kind mark front
          (t.text.tail ++ Token.concat ((tokenize text).drop 10)) ∧
          t = ⟨kind, '\x7d' :: front ++ mark⟩ := by
  intro text before t
  have hrun : tokenize text = before ++ t :: (tokenize text).drop 10 ∧
      ((before.flatMap Token.turns).foldl Turn.step []).head? = some .template := by
    decide +kernel
  have h := hrun.1
  have hinner : Turn.Innermost .template (before.flatMap Token.turns) :=
    Turn.head?_foldl_step_iff.mp hrun.2
  obtain ⟨hiff, hnext⟩ :=
    tokenize_closing_brace text before ((tokenize text).drop 10) t h (by decide)
  refine ⟨h, hinner, fun hblock => ?_, (hnext hinner).resolve_right fun hnone => ?_⟩
  · have hkind := hiff.mpr hblock
    simp [t] at hkind
  · have hkind := hnone.2.1
    simp [t] at hkind

end FreeNames
