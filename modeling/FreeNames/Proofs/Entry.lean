import FreeNames.Proofs.Aliases

/-!
# FreeNames.Proofs.Entry

What a parameter holds when its function is entered.  An access on a parameter is recorded
for the argument in the same position, but the parameter need not hold this argument: a
spread in front of it may pass any number of values, a later parameter may bind the name
again, and a function that is declared inside takes over its name.

* `Recorded` — the ways in which an access is recorded, call by call;
* `Node.entry` — what a name holds on entry, whatever values a call passes;
* `Handed` — none of the three is in the way.

Main statement: `entry_eq_argument_iff`.
-/

namespace FreeNames

/-! ## what names hold on entry -/

/-- What a name holds when a function is entered. -/
inductive Held (V : Type) where
  /-- A value that is passed. -/
  | value (v : V)
  /-- No value is passed in its place. -/
  | missing
  /-- What a pattern takes out of what is passed. -/
  | part
  /-- A function that is declared inside. -/
  | function

section

variable {V : Type}

/-- The values that arguments from a position on pass: a spread passes any number of them, any
other argument one. -/
def valuesFrom (one : Nat → V) (many : Nat → List V) : Nat → List Site → List V
  | _, [] => []
  | i, s :: ss =>
    (if s.node.kind = .spreadElement then many i else [one i]) ++ valuesFrom one many (i + 1) ss

/-- The values that a call passes. -/
def Site.values (call : Site) (one : Nat → V) (many : Nat → List V) : List V :=
  valuesFrom one many 0 call.arguments

/-- What parameters hold: a plain name holds the value in its position.  Of those that bind a
name the last one counts. -/
def held (x : Text) : List Node → List V → Option (Held V)
  | [], _ => none
  | p :: ps, vs =>
    match held x ps vs.tail with
    | some h => some h
    | none =>
      if x ∉ words p.boundNames then none
      else if p.kind = .name then some (vs.head?.elim .missing .value)
      else some .part

end

/-- The name of a function declaration. -/
def ownFunctions (n : Node) : List Text :=
  if n.kind = .functionDecl then words n.ownName?.toList else []

namespace Node

/-- The parameters of a function. -/
def parameters (f : Node) : List Node := f.parameterList?.elim [] children

/-- The names of the functions that are declared for the scope of a function. -/
def hoisted (f : Node) : List Text := f.declared ownFunctions NodeKind.isFunctionScope

/-- What a name holds when a function is entered with some values. -/
def entry {V : Type} (f : Node) (x : Text) (vs : List V) : Option (Held V) :=
  if x ∈ f.hoisted then some .function else held x f.parameters vs

end Node

/-- An argument is handed to the parameter in its position, and stays there: no argument before
it is a spread, no later parameter binds the name again, and no function takes it over. -/
structure Handed (call f : Site) (i : Nat) (x : Text) : Prop where
  alone : ∀ s ∈ call.arguments.take i, s.node.kind ≠ .spreadElement
  last : ∀ p ∈ f.node.parameters.drop (i + 1), x ∉ words p.boundNames
  kept : x ∉ f.node.hoisted

/-- An access is recorded for a group through the argument at a position of a call and the
parameter in the same position of the function that is called. -/
structure Recorded (root : Site) (g : Group) (a : Access) (call f : Site) (i : Nat) (x : Text) :
    Prop where
  site : call ∈ root.descendants
  called : call.calledFunction? = some f
  argument : ∃ r ∈ g.references, call.arguments[i]? = some r.site
  parameter : f.node.parameterAt? i = some x
  access : ∃ m ∈ f.bodySites, boundAccess? root.node f.node x m = some a

instance (call f : Site) (i : Nat) (x : Text) : Decidable (Handed call f i x) :=
  decidable_of_iff
    ((∀ s ∈ call.arguments.take i, s.node.kind ≠ .spreadElement) ∧
      (∀ p ∈ f.node.parameters.drop (i + 1), x ∉ words p.boundNames) ∧ x ∉ f.node.hoisted)
    ⟨fun ⟨halone, hlast, hkept⟩ => ⟨halone, hlast, hkept⟩,
      fun ⟨halone, hlast, hkept⟩ => ⟨halone, hlast, hkept⟩⟩

instance (root : Site) (g : Group) (a : Access) (call f : Site) (i : Nat) (x : Text) :
    Decidable (Recorded root g a call f i x) :=
  decidable_of_iff
    (call ∈ root.descendants ∧ call.calledFunction? = some f ∧
      (∃ r ∈ g.references, call.arguments[i]? = some r.site) ∧ f.node.parameterAt? i = some x ∧
      ∃ m ∈ f.bodySites, boundAccess? root.node f.node x m = some a)
    ⟨fun ⟨hsite, hf, hr, hx, hm⟩ => ⟨hsite, hf, hr, hx, hm⟩,
      fun ⟨hsite, hf, hr, hx, hm⟩ => ⟨hsite, hf, hr, hx, hm⟩⟩

/-! ## values in their positions -/

section

variable {V : Type} {one : Nat → V} {many : Nat → List V}

/-- After arguments that are no spreads comes the value of the next one. -/
theorem getElem?_valuesFrom {ss : List Site} {s : Site} {i : Nat} (start : Nat)
    (halone : ∀ s ∈ ss.take i, s.node.kind ≠ .spreadElement) (hs : ss[i]? = some s)
    (hk : s.node.kind ≠ .spreadElement) :
    (valuesFrom one many start ss)[i]? = some (one (start + i)) := by
  induction i generalizing ss start with
  | zero =>
      obtain ⟨ss, rfl⟩ : ∃ ts, ss = s :: ts := by
        cases ss <;> simp_all
      simp [valuesFrom, hk]
  | succ i ih =>
      cases ss with
      | nil => simp at hs
      | cons t ss =>
          have ht : t.node.kind ≠ .spreadElement := halone t (by simp)
          have hrest : (valuesFrom one many (start + 1) ss)[i]? = some (one (start + 1 + i)) :=
            ih (start + 1) (fun s hs => halone s (by simp [hs])) (by simpa using hs)
          rw [valuesFrom, if_neg ht, List.singleton_append, List.getElem?_cons_succ, hrest]
          congr 2
          omega

/-- If spreads pass nothing, an argument is not passed in a later position than its own, and in
its own only after arguments that are no spreads. -/
theorem le_of_getElem?_valuesFrom {ss : List Site} {start i j : Nat}
    (h : (valuesFrom id (fun _ => []) start ss)[j]? = some i) :
    start + j ≤ i ∧ (i = start + j → ∀ s ∈ ss.take j, s.node.kind ≠ .spreadElement) := by
  induction ss generalizing start j with
  | nil => simp [valuesFrom] at h
  | cons t ss ih =>
      rw [valuesFrom] at h
      split at h
      · obtain ⟨hle, -⟩ := ih h
        omega
      · next ht =>
          cases j with
          | zero =>
              obtain rfl : start = i := by simpa using h
              simp
          | succ j =>
              obtain ⟨hle, hbefore⟩ := ih (by simpa using h)
              refine ⟨by omega, fun hi => ?_⟩
              simpa [ht] using hbefore (by omega)

/-! ## the last parameter to bind a name -/

variable {x : Text} {ps : List Node} {vs : List V}

theorem held_eq_none_iff : held x ps vs = none ↔ ∀ p ∈ ps, x ∉ words p.boundNames := by
  induction ps generalizing vs with
  | nil => simp [held]
  | cons p ps ih =>
      rw [held, List.forall_mem_cons, ← @ih vs.tail]
      cases held x ps vs.tail with
      | some h => simp
      | none =>
          by_cases hx : x ∈ words p.boundNames <;> by_cases hk : p.kind = .name <;> simp [hx, hk]

/-- The last parameter to bind a name holds the value in its position, if it is a plain name. -/
theorem held_eq_value {p : Node} {i : Nat} {v : V} (hp : ps[i]? = some p) (hk : p.kind = .name)
    (hx : p.word = x) (hlast : ∀ q ∈ ps.drop (i + 1), x ∉ words q.boundNames)
    (hv : vs[i]? = some v) : held x ps vs = some (.value v) := by
  induction i generalizing ps vs with
  | zero =>
      obtain ⟨ps, rfl⟩ : ∃ qs, ps = p :: qs := by cases ps <;> simp_all
      obtain ⟨vs, rfl⟩ : ∃ us, vs = v :: us := by cases vs <;> simp_all
      rw [held, List.tail_cons, held_eq_none_iff.mpr (by simpa using hlast)]
      simp [Node.boundNames_of_name hk, words, hx, hk]
  | succ i ih =>
      cases ps with
      | nil => simp at hp
      | cons q ps =>
          cases vs with
          | nil => simp at hv
          | cons u vs =>
              rw [held, List.tail_cons,
                ih (by simpa using hp) (by simpa using hlast) (by simpa using hv)]

/-- A value that a name holds is passed in the position of the last parameter to bind it. -/
theorem exists_of_held_eq_value {v : V} (h : held x ps vs = some (.value v)) :
    ∃ i, vs[i]? = some v ∧ ∀ q ∈ ps.drop (i + 1), x ∉ words q.boundNames := by
  induction ps generalizing vs with
  | nil => cases h
  | cons p ps ih =>
      rw [held] at h
      split at h
      · next later hlater =>
          obtain ⟨i, hi, hlast⟩ := ih (hlater.trans h)
          exact ⟨i + 1, by simpa using hi, by simpa using hlast⟩
      · next hnone =>
          refine ⟨0, ?_, by simpa using held_eq_none_iff.mp hnone⟩
          split at h
          · cases h
          split at h
          · cases vs with
            | nil => cases h
            | cons u vs =>
                obtain rfl : u = v := by simpa using h
                rfl
          · cases h

end

/-! ## accesses that are recorded -/

section

variable {source : SourceType} {text : Text} {g : Group} {a : Access} {call f : Site} {i : Nat}
  {x : Text}

/-- The aliased accesses of a group are those that are recorded in some way. -/
theorem mem_aliases_iff {root : Site} :
    a ∈ g.aliases root ↔ ∃ call f i x, Recorded root g a call f i x := by
  rw [Group.aliases, List.mem_flatMap]
  refine exists_congr fun call => ⟨?_, ?_⟩
  · rintro ⟨hcall, ha⟩
    unfold Site.aliases at ha
    split at ha
    · cases ha
    · next f hf =>
        obtain ⟨i, -, ha⟩ := List.mem_flatMap.mp ha
        split at ha
        · next argument x hargument hx =>
            rw [Site.aliasesOf, List.mem_ite_nil_right, List.mem_filterMap] at ha
            obtain ⟨r, hr, rfl⟩ := List.mem_map.mp ha.1
            exact ⟨f, i, x, hcall, hf, ⟨r, hr, hargument⟩, hx, ha.2⟩
        · cases ha
  · rintro ⟨f, i, x, hcall, hf, ⟨r, hr, hargument⟩, hx, haccess⟩
    refine ⟨hcall, ?_⟩
    rw [Site.aliases, hf]
    refine List.mem_flatMap.mpr ⟨i, ?_, ?_⟩
    · exact List.mem_range.mpr (List.getElem?_eq_some_iff.mp hargument).1
    · simp only [hargument, hx, Site.aliasesOf, List.mem_ite_nil_right, List.mem_filterMap]
      exact ⟨List.mem_map_of_mem hr, haccess⟩

theorem Node.parameterAt?_eq_some {f : Node} (h : f.parameterAt? i = some x) :
    ∃ p, f.parameters[i]? = some p ∧ p.kind = .name ∧ p.word = x := by
  simp only [parameterAt?, Option.map_eq_some_iff, Option.filter_eq_some_iff,
    Option.bind_eq_some_iff, decide_eq_true_eq] at h
  obtain ⟨p, ⟨⟨list, hlist, hp⟩, hk⟩, hword⟩ := h
  exact ⟨p, by simpa [parameters, hlist] using hp, hk, hword⟩

/-- A parameter holds the argument in its position on entry, whatever is passed, exactly when
the argument is handed to it. -/
theorem entry_eq_value_iff {s : Site} (hs : call.arguments[i]? = some s)
    (hk : s.node.kind ≠ .spreadElement) (hx : f.node.parameterAt? i = some x) :
    (∀ (V : Type) (one : Nat → V) (many : Nat → List V),
      f.node.entry x (call.values one many) = some (.value (one i))) ↔ Handed call f i x := by
  obtain ⟨p, hp, hname, hword⟩ := Node.parameterAt?_eq_some hx
  constructor
  · intro h
    -- arguments that can be told apart, and spreads that pass nothing
    have hentry := h Nat id fun _ => []
    unfold Node.entry at hentry
    split at hentry
    · cases hentry
    · next hkept =>
        obtain ⟨j, hj, hlast⟩ := exists_of_held_eq_value hentry
        obtain ⟨hle, halone⟩ := le_of_getElem?_valuesFrom hj
        rw [Nat.zero_add, id] at hle halone
        have hij : i ≤ j := by
          refine Nat.le_of_not_lt fun hlt => ?_
          refine hlast p ?_ (by simp [Node.boundNames_of_name hname, words, hword])
          refine List.mem_of_getElem? (i := i - (j + 1)) ?_
          rw [List.getElem?_drop, Nat.add_sub_of_le hlt, hp]
        obtain rfl := Nat.le_antisymm hle hij
        exact ⟨halone rfl, hlast, hkept⟩
  · intro h V one many
    rw [Node.entry, if_neg h.kept]
    refine held_eq_value hp hname hword h.last ?_
    rw [Site.values, getElem?_valuesFrom 0 h.alone hs hk, Nat.zero_add]

/-- The same for accesses that are recorded: the argument is a reference, and so no spread. -/
theorem Recorded.entry_iff
    (hg : g ∈ Globals.collect (Scopes.build (parse source text).root) (parse source text).root)
    (h : Recorded (parse source text).root g a call f i x) :
    (∀ (V : Type) (one : Nat → V) (many : Nat → List V),
      f.node.entry x (call.values one many) = some (.value (one i))) ↔ Handed call f i x := by
  obtain ⟨r, hr, hargument⟩ := h.argument
  refine entry_eq_value_iff hargument ?_ h.parameter
  obtain ⟨-, hresolve, -⟩ := Globals.of_mem_references hg hr
  rcases (Globals.resolve?_eq_some hresolve).2 with ⟨hk, -⟩ | ⟨hk, -⟩ <;> simp [hk]

end

/-- The aliased accesses of a group are those that are recorded through the argument at a
position of a call and a parameter of the function that is called.  The parameter holds this
argument when the function is entered, whatever is passed, exactly when the argument is handed to
it: no argument before it is a spread, no later parameter binds the name, and no function that is
declared inside has it. -/
theorem entry_eq_argument_iff (source : SourceType) (text : Text) :
    ∃ groups, globalsAt (parse source text).root = .ok groups ∧ ∀ g ∈ groups,
      (∀ a, a ∈ g.aliased ↔ ∃ call f i x, Recorded (parse source text).root g a call f i x) ∧
      ∀ a call f i x, Recorded (parse source text).root g a call f i x →
        ((∀ (V : Type) (one : Nat → V) (many : Nat → List V),
          f.node.entry x (call.values one many) = some (.value (one i))) ↔ Handed call f i x) := by
  refine ⟨_, if_pos rfl, fun g hg => ⟨fun a => ?_, fun a call f i x h => h.entry_iff hg⟩⟩
  rw [aliased_eq hg, mem_aliases_iff]

/-- A parameter that is also declared as a variable, in front of a spread. -/
theorem entry_eq_argument_iff_variable :
    ∃ text groups, text = "(function (w, v) \x7b var w; w.x; v.y \x7d)(window, ...s)".toList ∧
      (parse .script text).problems = [] ∧ globalsAt (parse .script text).root = .ok groups ∧
      ∃ g ∈ groups, ∃ a ∈ g.aliased, ∃ call f i x,
        Recorded (parse .script text).root g a call f i x ∧ Handed call f i x ∧
        ∀ (V : Type) (one : Nat → V) (many : Nat → List V),
          f.node.entry x (call.values one many) = some (.value (one i)) := by
  obtain ⟨text, htext⟩ : ∃ text,
    text = "(function (w, v) \x7b var w; w.x; v.y \x7d)(window, ...s)".toList := ⟨_, rfl⟩
  have hrun : (parse .script text).problems = [] ∧
      ∃ g ∈ Globals.collect (Scopes.build (parse .script text).root) (parse .script text).root,
        ∃ a ∈ g.aliased, ∃ call ∈ (parse .script text).root.descendants,
        ∃ f ∈ call.calledFunction?.toList, ∃ i ∈ List.range 2,
        ∃ x ∈ (f.node.parameterAt? i).toList,
          Recorded (parse .script text).root g a call f i x ∧ Handed call f i x := by
    rw [htext]; decide +kernel
  obtain ⟨hok, g, hg, a, ha, call, -, f, -, i, -, x, -, hrecorded, hhanded⟩ := hrun
  obtain ⟨groups, hgroups, hall⟩ := entry_eq_argument_iff .script text
  obtain rfl : Globals.collect _ _ = groups := by simpa [globalsAt, Parse.root] using hgroups
  exact ⟨text, _, htext, hok, hgroups, g, hg, a, ha, call, f, i, x, hrecorded, hhanded,
    ((hall g hg).2 a call f i x hrecorded).mpr hhanded⟩

/-- Accesses are also recorded where a later parameter has the name, after a spread, and where a
function has the name. -/
theorem recorded_not_on_entry :
    ∃ text groups, text = ("(function (w, w) \x7b w.x \x7d)(window, 1);" ++
        "(function (a, b) \x7b b.y \x7d)(...s, window);" ++
        "(function (w) \x7b function w() \x7b\x7d w.z \x7d)(window)").toList ∧
      (parse .script text).problems = [] ∧ globalsAt (parse .script text).root = .ok groups ∧
      ∃ g ∈ groups, g.aliased.map Access.name = ["x".toList, "y".toList, "z".toList] ∧
        ∀ a ∈ g.aliased, ∃ call f i x, Recorded (parse .script text).root g a call f i x ∧
          ¬∀ (V : Type) (one : Nat → V) (many : Nat → List V),
            f.node.entry x (call.values one many) = some (.value (one i)) := by
  obtain ⟨text, htext⟩ : ∃ text, text = ("(function (w, w) \x7b w.x \x7d)(window, 1);" ++
    "(function (a, b) \x7b b.y \x7d)(...s, window);" ++
    "(function (w) \x7b function w() \x7b\x7d w.z \x7d)(window)").toList := ⟨_, rfl⟩
  have hrun : (parse .script text).problems = [] ∧
      ∃ g ∈ Globals.collect (Scopes.build (parse .script text).root) (parse .script text).root,
        g.aliased.map Access.name = ["x".toList, "y".toList, "z".toList] ∧ ∀ a ∈ g.aliased,
          ∃ call ∈ (parse .script text).root.descendants, ∃ f ∈ call.calledFunction?.toList,
          ∃ i ∈ List.range 2, ∃ x ∈ (f.node.parameterAt? i).toList,
            Recorded (parse .script text).root g a call f i x ∧ ¬Handed call f i x := by
    rw [htext]; decide +kernel
  obtain ⟨hok, g, hg, hnames, hall⟩ := hrun
  refine ⟨text, _, htext, hok, if_pos rfl, g, hg, hnames, fun a ha => ?_⟩
  obtain ⟨call, -, f, -, i, -, x, -, hrecorded, hnot⟩ := hall a ha
  exact ⟨call, f, i, x, hrecorded, fun hentry => hnot ((hrecorded.entry_iff hg).mp hentry)⟩

end FreeNames
