import AvroIdl.Proofs.Completion.Context
import AvroIdl.Proofs.Project.Documents
import AvroIdl.Proofs.Resolution.Unique
import AvroIdl.Proofs.Tree.Offset

/-!
# Accepting a completion

A candidate is written by its simple name where it belongs to the namespace of the place, and by its
full name elsewhere. Written like this, a reference means the type that was offered:
`Candidate.resolve_label`. The exception are types without a namespace, whose full name is a simple
one: another type of that name in the namespace of the place comes first. `Candidate.Unshadowed`
says that there is none.

* `Timeline.complete_resolves`: what is offered at a reference of any document of any snapshot;
* `Timeline.complete_shadowed`: a type without a namespace that is offered and not meant.
-/

namespace AvroIdl

namespace Candidate

variable {scope : Scope} {space : Bytes} {o : Symbol}

/-- No other visible type comes before a type without a namespace when its label is written in a
namespace. If its full name has a leading dot, it can be found by its simple name only. -/
def Unshadowed (scope : Scope) (space : Bytes) (o : Symbol) : Prop :=
  o.nameSpace = [] → ∀ other ∈ scope.types, other ≠ o →
    other.name ≠ Name.qualify space (ofSymbol space o).label ∧
      (space = [] → o.name = Name.dot :: o.simpleName → other.simpleName ≠ o.simpleName)

variable {r : Reference}

theorem fullNames_of_mem (dotted : Name.dot ∈ r.name) : r.fullNames = [r.name] := by
  rw [Reference.fullNames, Reference.isQualified, Name.isQualified_iff.mpr dotted]
  rfl

theorem fullNames_of_nil (none : r.nameSpace = []) : r.fullNames = [r.name] := by
  rw [Reference.fullNames, none, if_pos (by simp)]

theorem fullNames_of_not_mem (plain : Name.dot ∉ r.name) (some : r.nameSpace ≠ []) :
    r.fullNames = [Name.qualify r.nameSpace r.name, r.name] := by
  have simple : r.isQualified = false := Bool.eq_false_iff.mpr fun q => plain (Name.isQualified_iff.mp q)
  rw [Reference.fullNames, simple, Name.qualify_of_not_mem plain some, if_neg (by simpa using some)]

/-- Where a type belongs to the namespace of the place, its simple name means it. -/
theorem resolve_simpleName (h : scope.Distinct) (mem : o ∈ scope.types) (spelled : o.Spelled)
    (type : Primitive.isPrimitive o.simpleName = false) (unshadowed : Unshadowed scope space o)
    (same : o.nameSpace = space) (name : r.name = o.simpleName) (around : r.nameSpace = space) :
    r.resolve scope = .resolved o := by
  have plain : Name.dot ∉ r.name := by
    rw [name]
    exact Name.dot_not_mem_simple o.name
  have free : Primitive.isPrimitive r.name = false := by rwa [name]
  have simple : r.isQualified = false := Bool.eq_false_iff.mpr fun q => plain (Name.isQualified_iff.mp q)
  have label : (ofSymbol space o).label = o.simpleName := by rw [ofSymbol, if_pos same]
  rcases spelled with full | ⟨none, dotted⟩
  · -- The first full name that the reference can stand for is that of the type.
    have first : o.name = Name.qualify r.nameSpace r.name := by rw [around, ← same, name, full]
    have names : ∃ after, r.fullNames = [] ++ o.name :: after := by
      by_cases none : r.nameSpace = []
      · exact ⟨[], by rw [fullNames_of_nil none, first, Name.qualify, none]; rfl⟩
      · exact ⟨[r.name], by rw [fullNames_of_not_mem plain none, first]; rfl⟩
    obtain ⟨after, names⟩ := names
    exact Reference.resolve_of_fullName h mem (.inr free) names (by simp)
  · have none' : space = [] := same.symm.trans none
    have bare : r.fullNames = [o.simpleName] := by
      rw [fullNames_of_nil (around.trans none'), name]
    refine Reference.resolve_of_simpleName h mem simple free ?_ name fun other there ne =>
      (unshadowed none other there ne).2 none' dotted
    intro n among other there
    rw [bare, List.mem_singleton] at among
    subst among
    by_cases ne : other = o
    · subst ne
      rw [dotted]
      exact fun eq => absurd (congrArg List.length eq) (by simp)
    · have := (unshadowed none other there ne).1
      rwa [label, none', Name.qualify, if_pos (by rfl)] at this

/-- Where a type does not belong to the namespace of the place, its full name means it. -/
theorem resolve_name (h : scope.Distinct) (mem : o ∈ scope.types) (spelled : o.Spelled)
    (type : Primitive.isPrimitive o.simpleName = false) (unshadowed : Unshadowed scope space o)
    (other : o.nameSpace ≠ space) (name : r.name = o.name) (around : r.nameSpace = space) :
    r.resolve scope = .resolved o := by
  have label : (ofSymbol space o).label = o.name := by rw [ofSymbol, if_neg other]
  by_cases dotted : Name.dot ∈ o.name
  · have dotted : Name.dot ∈ r.name := by rwa [name]
    have names : r.fullNames = [] ++ o.name :: [] := by rw [fullNames_of_mem dotted, name]; rfl
    exact Reference.resolve_of_fullName h mem (.inl (Name.isQualified_iff.mpr dotted)) names (by simp)
  · -- The type has no namespace, so that the place has one.
    have none : o.nameSpace = [] := by
      rcases spelled with full | ⟨none, -⟩
      · by_contra some
        rw [Symbol.simpleName, Name.qualify_of_not_mem (Name.dot_not_mem_simple o.name) some] at full
        refine dotted ?_
        rw [full]
        exact List.mem_append_right _ List.mem_cons_self
      · exact none
    have some : space ≠ [] := fun eq => other (none.trans eq.symm)
    have plain : Name.dot ∉ r.name := by rwa [name]
    have free : Primitive.isPrimitive r.name = false := by
      rwa [name, ← Name.simple_of_not_mem dotted]
    have longer : Name.qualify space o.name = space ++ Name.dot :: o.name :=
      Name.qualify_of_not_mem dotted some
    have names : r.fullNames = [Name.qualify space o.name] ++ o.name :: [] := by
      rw [fullNames_of_not_mem plain (around ▸ some), name, around]
      rfl
    refine Reference.resolve_of_fullName h mem (.inr free) names fun n early other there => ?_
    rw [List.mem_singleton] at early
    subst early
    by_cases ne : other = o
    · subst ne
      rw [longer]
      intro eq
      refine dotted ?_
      rw [eq]
      exact List.mem_append_right _ List.mem_cons_self
    · have := (unshadowed none other there ne).1
      rwa [label] at this

/-- Written by its label, a candidate is meant. -/
theorem resolve_label (h : scope.Distinct) (mem : o ∈ scope.types) (spelled : o.Spelled)
    (type : Primitive.isPrimitive o.simpleName = false) (unshadowed : Unshadowed scope space o)
    (name : r.name = (ofSymbol space o).label) (around : r.nameSpace = space) :
    r.resolve scope = .resolved o := by
  by_cases same : o.nameSpace = space
  · rw [ofSymbol, if_pos same] at name
    exact resolve_simpleName h mem spelled type unshadowed same name around
  · rw [ofSymbol, if_neg same] at name
    exact resolve_name h mem spelled type unshadowed same name around

/-- The candidates with a symbol are the visible types, each by its label. -/
theorem of_mem_make {context : NameContext} {replace : Span} {start : Bytes} {c : Candidate}
    (mem : c ∈ (Completion.make scope context replace start).candidates) (symbol : c.symbol = some o) :
    o ∈ scope.types ∧ c = ofSymbol context.nameSpace o := by
  rcases List.mem_append.mp mem with builtIn | type
  · split_ifs at builtIn
    · contradiction
    · obtain ⟨p, -, rfl⟩ := List.mem_map.mp builtIn
      contradiction
  · rw [types, List.mem_mergeSort] at type
    obtain ⟨o', found, rfl⟩ := List.mem_map.mp type
    obtain rfl : o' = o := Option.some.inj symbol
    exact ⟨(List.mem_filter.mp (List.mem_filter.mp found).1).1, rfl⟩

/-- A visible type is offered after the start of its label. -/
theorem mem_make {context : NameContext} {start : Bytes} (replace : Span) (visible : o ∈ scope.types)
    (any : context.errorsOnly = false)
    (starts : start.isPrefixOf (ofSymbol context.nameSpace o).label = true) :
    ofSymbol context.nameSpace o ∈ (Completion.make scope context replace start).candidates := by
  refine List.mem_append_right _ ?_
  rw [types, List.mem_mergeSort]
  refine List.mem_map_of_mem (List.mem_filter.mpr ⟨List.mem_filter.mpr ⟨visible, ?_⟩, ?_⟩)
  · rw [any]
    rfl
  · rw [starts]
    rfl

end Candidate

namespace Snapshot

variable {s : Snapshot} {d : Document}

/-- The tables that are visible from a document are told apart. -/
theorem distinct_scopeOf (proper : s.Proper) (held : d ∈ s.docs)
    (names : ((s.scopeOf d).types.map Symbol.name).Nodup) : (s.scopeOf d).Distinct := by
  refine ⟨fun t visible => ?_, fun a ha b hb same => ?_, names⟩
  · obtain ⟨e, loaded, rfl⟩ := visible_scopeOf held visible
    exact (proper.docs e loaded).indexed.sound
  · obtain ⟨x, loaded, rfl⟩ := visible_scopeOf held (.tail _ ha)
    obtain ⟨y, loaded', rfl⟩ := visible_scopeOf held (.tail _ hb)
    rw [proper.told x loaded y loaded' same]

theorem spelled_of_visible (proper : s.Proper) (held : d ∈ s.docs) {o : Symbol}
    (mem : o ∈ (s.scopeOf d).types) : o.Spelled := by
  obtain ⟨t, visible, declared⟩ := List.mem_flatMap.mp mem
  obtain ⟨e, loaded, rfl⟩ := visible_scopeOf held visible
  exact (proper.docs e loaded).spells o declared

/-- Completion goes by the leaf before the offset. -/
theorem complete_eq {uri : Bytes} (held : s.document? uri = some d) {tree : Tree}
    (idl : d.tree? = some tree) {offset : Nat} (some : 0 < offset) (fits : offset ≤ d.text.length)
    {p : Leaf × List Node} (inside : tree.leafAt? (offset - 1) = .some p) :
    ∃ replace, s.complete uri offset = .ok (.make (s.scopeOf d) (.within d.table false p.2) replace
      (if p.1.isNameStart then p.1.nameStart offset else [])) := by
  unfold complete
  simp only [held, idl, if_neg (Nat.not_lt.mpr fits), if_neg (Nat.ne_of_gt some), inside]
  split_ifs
  · exact ⟨_, rfl⟩
  · exact ⟨_, rfl⟩

/-- Within the name of a reference, completion goes by the nodes around the reference. -/
theorem complete_at (proper : s.Proper) {uri : Bytes} (held : s.document? uri = some d) {tree : Tree}
    (idl : d.tree? = some tree) {r : Reference} (mem : r ∈ d.table.references) {offset : Nat}
    (after : r.span.start < offset) (upTo : offset ≤ r.span.stop) :
    ∃ path replace start, tree.pathTo? r.node = some path ∧
      s.complete uri offset =
        .ok (.make (s.scopeOf d) (.within d.table false path) replace start) := by
  have good := proper.docs d (mem_of_document? held).1
  obtain ⟨table, lossless, text⟩ := good.indexed.ofTree tree idl
  have formed := good.formed tree idl
  rw [table] at mem
  obtain ⟨p, leaf, here, found, -⟩ := Table.reference_indexed lossless formed mem
  obtain ⟨n, above, path, -, named, -⟩ := here.written
  have measured := (tree.measured_of_named lossless formed leaf path named).2
  obtain ⟨-, stop, -⟩ := Table.reference_in_text lossless formed leaf here
  have bounds := Element.bounds_of_mem measured leaf
  rw [Element.width_eq measured, lossless.text, text] at bounds
  have start : r.span.start = p.1.start := by rw [here.span]; rfl
  have inside : tree.leafAt? (offset - 1) = some p :=
    Tree.leafAt?_eq measured leaf ⟨by omega, by omega⟩
  obtain ⟨replace, done⟩ := complete_eq held idl (by omega) (by omega) inside
  exact ⟨p.2, replace, _, found, done⟩

/-- Completion goes by the namespace of a reference exactly where `Tree.AgreesAt` says so. -/
theorem agreesAt_iff (proper : s.Proper) (held : d ∈ s.docs) {tree : Tree} (idl : d.tree? = some tree)
    {r : Reference} (mem : r ∈ d.table.references) {path : List Node}
    (found : tree.pathTo? r.node = some path) :
    tree.AgreesAt path ↔ (NameContext.within d.table false path).nameSpace = r.nameSpace := by
  have good := proper.docs d held
  obtain ⟨table, lossless, -⟩ := good.indexed.ofTree tree idl
  have formed := good.formed tree idl
  rw [table] at mem ⊢
  obtain ⟨p, leaf, -, found', given⟩ := Table.reference_indexed lossless formed mem
  obtain rfl : p.2 = path := Option.some.inj (found'.symm.trans found)
  have compared := Table.within_indexed d.serial d.uri lossless formed (Tree.descends_of_mem leaf) false
  rw [given] at compared
  exact compared.2.symm

end Snapshot

namespace Timeline

/-- Names are offered within the name of a reference, and each type that is offered and not shadowed
is what the reference means once it is written by its label. -/
theorem complete_resolves (options : ProjectOptions) (limit : options.maxSize ≤ maxOffset)
    (events : List Event) (s : Snapshot) (taken : s ∈ (run options events).taken)
    (uri : Bytes) (d : Document) (held : s.document? uri = some d)
    (tree : Tree) (idl : d.tree? = some tree)
    (distinct : ((s.scopeOf d).types.map Symbol.name).Nodup)
    (plain : ∀ o ∈ (s.scopeOf d).types, Primitive.isPrimitive o.simpleName = false)
    (r : Reference) (mem : r ∈ d.table.references)
    (agrees : ∀ path, tree.pathTo? r.node = some path → tree.AgreesAt path)
    (offset : Nat) (after : r.span.start < offset) (upTo : offset ≤ r.span.stop) :
    ∃ completion, s.complete uri offset = .ok completion ∧
      ∀ c ∈ completion.candidates, ∀ o, c.symbol = some o →
        Candidate.Unshadowed (s.scopeOf d) r.nameSpace o →
        ({ r with name := c.label } : Reference).resolve (s.scopeOf d) = .resolved o := by
  have proper := proper_of_taken limit events taken
  have loaded : d ∈ s.docs := (Snapshot.mem_of_document? held).1
  obtain ⟨path, replace, start, found, done⟩ := Snapshot.complete_at proper held idl mem after upTo
  have space := (Snapshot.agreesAt_iff proper loaded idl mem found).mp (agrees path found)
  refine ⟨_, done, fun c offered o symbol unshadowed => ?_⟩
  obtain ⟨visible, rfl⟩ := Candidate.of_mem_make offered symbol
  rw [space]
  exact Candidate.resolve_label (Snapshot.distinct_scopeOf proper loaded distinct) visible
    (Snapshot.spelled_of_visible proper loaded visible) (plain o visible) unshadowed rfl rfl

/-- A record refers to a type of another namespace, before the document is edited. -/
def foreign : List Event :=
  [.openDocument "/a.avdl"
      "@namespace(\"x\") protocol P \x7b record A { } @namespace(\"y\") record B { A a; x.A b; } \x7d",
    .update "/a.avdl" ⟨36, 1, "C"⟩]

theorem complete_resolves_foreign :
    let s := (run {} foreign).snapshot 1
    ∃ d, s.document? "/a.avdl" = some d ∧ ∃ r ∈ d.table.references,
      (r.name = "x.A" ∧ r.nameSpace = "y") ∧
      ∃ completion, s.complete "/a.avdl" 75 = .ok completion ∧
        completion.candidates.map Candidate.label = ["x.A"] ∧
        ∀ c ∈ completion.candidates, ∀ o, c.symbol = some o →
          Candidate.Unshadowed (s.scopeOf d) r.nameSpace o →
          ({ r with name := c.label } : Reference).resolve (s.scopeOf d) = .resolved o := by
  intro s
  have taken : s ∈ (run {} foreign).taken := snapshot_mem _ 1
  have limit : ({} : ProjectOptions).maxSize ≤ maxOffset := by decide
  have proper := proper_of_taken limit foreign taken
  have held : (s.document? "/a.avdl").isSome = true := by decide +kernel
  obtain ⟨d, held⟩ := Option.isSome_iff_exists.mp held
  have loaded : d ∈ s.docs := (Snapshot.mem_of_document? held).1
  have known : ∀ d ∈ s.docs, d.tree?.isSome = true ∧
      ((s.scopeOf d).types.map Symbol.name).Nodup ∧
      (∀ o ∈ (s.scopeOf d).types, Primitive.isPrimitive o.simpleName = false) ∧
      ∃ r ∈ d.table.references, (r.name = "x.A" ∧ r.nameSpace = "y") ∧
        (r.span.start < 75 ∧ 75 ≤ r.span.stop) ∧
        ∀ tree ∈ d.tree?, ∀ path ∈ tree.pathTo? r.node,
          (NameContext.within d.table false path).nameSpace = r.nameSpace := by
    decide +kernel
  obtain ⟨idl, distinct, plain, r, mem, name, ⟨after, upTo⟩, spaces⟩ := known d loaded
  obtain ⟨tree, idl⟩ := Option.isSome_iff_exists.mp idl
  have agrees : ∀ path, tree.pathTo? r.node = some path → tree.AgreesAt path := fun path found =>
    (Snapshot.agreesAt_iff proper loaded idl mem found).mpr (spaces tree idl path found)
  have labels : (s.complete "/a.avdl" 75).toOption.map (·.candidates.map Candidate.label) =
      some [("x.A" : Bytes)] := by decide +kernel
  obtain ⟨completion, done, meant⟩ := complete_resolves {} limit foreign s taken "/a.avdl" d held
    tree idl distinct plain r mem agrees 75 after upTo
  rw [done] at labels
  exact ⟨d, held, r, mem, name, completion, done, Option.some.inj labels, meant⟩

/-- A type of the namespace `x` and a type without a namespace have one simple name. -/
def shadowed : Snapshot :=
  let text :=
    "@namespace(\"x\") protocol P \x7b record A { } @namespace(\"\") record A { } record B { A a; } \x7d"
  (run {} [.openDocument "/a.avdl" text]).project.now

/-- Both types are offered by one label. At the reference it means the one of the namespace, so that
the type without a namespace is offered in vain. -/
theorem complete_shadowed :
    ∃ d, shadowed.document? "/a.avdl" = some d ∧
      ((shadowed.scopeOf d).types.map Symbol.name).Nodup ∧
      (∀ o ∈ (shadowed.scopeOf d).types, Primitive.isPrimitive o.simpleName = false) ∧
      ∃ r ∈ d.table.references, (r.span.start < 82 ∧ 82 ≤ r.span.stop ∧ r.nameSpace = "x") ∧
      ∃ completion, shadowed.complete "/a.avdl" 82 = .ok completion ∧
      ∃ c ∈ completion.candidates, ∃ o, c.symbol = some o ∧ o.name = "A" ∧
        ({ r with name := c.label } : Reference).resolve (shadowed.scopeOf d) ≠ .resolved o := by
  have held : (shadowed.document? "/a.avdl").isSome = true := by decide +kernel
  obtain ⟨d, held⟩ := Option.isSome_iff_exists.mp held
  have known : ∀ d ∈ shadowed.docs, d.tree?.isSome = true ∧ 82 ≤ d.text.length ∧
      ((shadowed.scopeOf d).types.map Symbol.name).Nodup ∧
      (∀ o ∈ (shadowed.scopeOf d).types, Primitive.isPrimitive o.simpleName = false) ∧
      (∀ tree ∈ d.tree?, ∃ p ∈ tree.leafAt? 81, p.1.isNameStart = true ∧ p.1.nameStart 82 = "A" ∧
        NameContext.within d.table false p.2 = ⟨false, "x"⟩) ∧
      ∃ r ∈ d.table.references, (r.span.start < 82 ∧ 82 ≤ r.span.stop ∧ r.nameSpace = "x") ∧
      ∃ o ∈ (shadowed.scopeOf d).types, o.name = "A" ∧ (Candidate.ofSymbol "x" o).label = "A" ∧
        ({ r with name := "A" } : Reference).resolve (shadowed.scopeOf d) ≠ .resolved o := by
    decide +kernel
  obtain ⟨idl, fits, distinct, plain, leaf, r, mem, inside, o, visible, name, label, other⟩ :=
    known d (Snapshot.mem_of_document? held).1
  obtain ⟨tree, idl⟩ := Option.isSome_iff_exists.mp idl
  obtain ⟨p, found, starts, start, context⟩ := leaf tree idl
  obtain ⟨replace, done⟩ := Snapshot.complete_eq held idl (by decide) fits found
  rw [if_pos starts, start, context] at done
  refine ⟨d, held, distinct, plain, r, mem, inside, _, done, Candidate.ofSymbol "x" o,
    Candidate.mem_make replace visible rfl ?_, o, rfl, name, ?_⟩
  · rw [label]
    decide
  · rwa [label]

end Timeline

end AvroIdl
