import AvroIdl.Proofs.Project.Occurrence

/-!
# Disabled checks

Disabling checks makes no difference to what a project does, `Project.after_disabling`, and none to
the order of what is still reported, since sorting is stable, `filter_mergeSort`. So the diagnostics
of an IDL document are those of the same project with nothing disabled, less those with a disabled
code. The problems of a JSON document are those of its table, whatever is disabled:
`Project.diagnostics_disabling`.
-/

namespace AvroIdl

/-! ## Sorting what is left -/

section Sorting

variable {α : Type} {le : α → α → Bool} (trans : ∀ a b c, le a b = true → le b c = true → le a c = true)
  (total : ∀ a b, (le a b || le b a) = true)

include trans total

/-- The first element of a list is sorted in before those that it may stand before. -/
theorem mergeSort_cons_eq (a : α) (l : List α) :
    (a :: l).mergeSort le =
      (l.mergeSort le).filter (fun b => !le a b) ++ a :: (l.mergeSort le).filter (le a) := by
  obtain ⟨before, behind, eq, rest, smaller⟩ := List.mergeSort_cons trans total a l
  have sorted : (before ++ a :: behind).Pairwise fun a b => le a b = true :=
    eq ▸ List.pairwise_mergeSort trans total (a :: l)
  have greater : ∀ b ∈ behind, le a b = true :=
    (List.pairwise_cons.mp (List.pairwise_append.mp sorted).2.1).1
  have left : (before ++ behind).filter (fun b => !le a b) = before := by
    rw [List.filter_append, List.filter_eq_self.mpr smaller, List.filter_eq_nil_iff.mpr,
      List.append_nil]
    intro b mem
    simp [greater b mem]
  have right : (before ++ behind).filter (le a) = behind := by
    rw [List.filter_append, List.filter_eq_self.mpr greater, List.filter_eq_nil_iff.mpr,
      List.nil_append]
    intro b mem
    simpa using smaller b mem
  rw [eq, rest, left, right]

/-- It makes no difference whether elements are left out before or after sorting. -/
theorem filter_mergeSort (keep : α → Bool) (l : List α) :
    (l.mergeSort le).filter keep = (l.filter keep).mergeSort le := by
  induction l with
  | nil => simp
  | cons a rest ih =>
    cases kept : keep a with
    | true =>
      rw [List.filter_cons_of_pos kept, mergeSort_cons_eq trans total, mergeSort_cons_eq trans total,
        ← ih, List.filter_append, List.filter_cons_of_pos kept]
      simp only [List.filter_filter, Bool.and_comm]
    | false =>
      have dropped : ¬ keep a = true := by simp [kept]
      obtain ⟨before, behind, eq, without, -⟩ := List.mergeSort_cons trans total a rest
      rw [List.filter_cons_of_neg dropped, ← ih, eq, without, List.filter_append,
        List.filter_append, List.filter_cons_of_neg dropped]

end Sorting

namespace Diagnostic

theorem notAfter_iff {a b : Diagnostic} :
    a.notAfter b = true ↔
      a.span.start < b.span.start ∨ a.span.start = b.span.start ∧
        (a.span.len < b.span.len ∨ a.span.len = b.span.len ∧
          (a.code < b.code ∨ a.code = b.code ∧ a.message ≤ b.message)) := by
  unfold notAfter
  split_ifs with start len code
  · simp [start]
  · simp_all
  · simp_all
  · simp_all [Bytes.before]

theorem notAfter_trans (a b c : Diagnostic) (ab : a.notAfter b = true) (bc : b.notAfter c = true) :
    a.notAfter c = true := by
  have messages : a.message ≤ b.message → b.message ≤ c.message → a.message ≤ c.message :=
    List.le_trans
  rw [notAfter_iff] at *
  grind

theorem notAfter_total (a b : Diagnostic) : (a.notAfter b || b.notAfter a) = true := by
  have messages : a.message ≤ b.message ∨ b.message ≤ a.message := List.le_total ..
  rw [Bool.or_eq_true, notAfter_iff, notAfter_iff]
  grind

end Diagnostic

/-! ## What is reported -/

def CheckOptions.disabling (opts : CheckOptions) (codes : List Nat) : CheckOptions :=
  { opts with disabled := codes }

/-- A check reports the same in the same order, less what is disabled. -/
theorem CheckOptions.check_disabling (opts : CheckOptions) (codes : List Nat) (i : CheckInput) :
    (opts.disabling codes).check i =
      ((opts.disabling []).check i).filter fun d => !codes.contains d.code := by
  have reported (d : Diagnostic) : (opts.disabling codes).report? i.own.uri d =
      ((opts.disabling []).report? i.own.uri d).filter fun d => !codes.contains d.code := by
    by_cases off : d.code ∈ codes <;> simp [report?, disabling, off, Option.filter]
  rw [check, check, filter_mergeSort Diagnostic.notAfter_trans Diagnostic.notAfter_total,
    List.filter_filterMap]
  exact congrArg (List.mergeSort · Diagnostic.notAfter)
    (List.filterMap_congr fun d _ => reported d)

theorem SyntaxError.code_lt (e : SyntaxError) : e.code < 3000 := by
  cases e with
  | lexical cause => cases cause <;> simp [code, LexError.code]
  | expected what => cases what <;> simp [code, Expected.code]
  | tooLong | unexpected | danglingAnnotations => simp [code, LexError.code]

namespace Element

mutual

theorem code_diagnosticsFrom (start : Nat) (e : Element) :
    ∀ d ∈ e.diagnosticsFrom start, d.code < 3000 := by
  cases e with
  | leaf => simp [diagnosticsFrom]
  | node l children =>
    intro d mem
    rw [diagnosticsFrom] at mem
    split_ifs at mem
    · rcases List.mem_append.mp mem with here | below
      · unfold Node.diagnostic? at here
        split_ifs at here
        · obtain ⟨e, -, rfl⟩ := Option.map_eq_some_iff.mp (Option.mem_toList.mp here)
          exact e.code_lt
        · simp at here
      · exact code_diagnosticsFromAll start children d below
    · contradiction

theorem code_diagnosticsFromAll (start : Nat) (es : List Element) :
    ∀ d ∈ diagnosticsFromAll start es, d.code < 3000 := by
  cases es with
  | nil => simp [diagnosticsFromAll]
  | cons e rest =>
    intro d mem
    rw [diagnosticsFromAll] at mem
    rcases List.mem_append.mp mem with here | later
    · exact code_diagnosticsFrom start e d here
    · exact code_diagnosticsFromAll _ rest d later

end

end Element

namespace Snapshot

variable {s : Snapshot} {uri : Bytes} {d : Document}

/-- What is disabled makes no difference to what is remembered. -/
theorem cache_diagnostics (s : Snapshot) (opts opts' : CheckOptions)
    (interrupt : Option DocumentError) (c : Cache) (uri : Bytes) :
    (s.diagnostics opts interrupt c uri).1 = (s.diagnostics opts' interrupt c uri).1 := by
  unfold diagnostics
  split
  next => rfl
  next => split <;> rfl

theorem diagnostics_json (held : s.document? uri = some d) (json : d.tree? = none)
    (opts : CheckOptions) (c : Cache) :
    (s.diagnostics opts none c uri).2 = .ok d.table.diagnostics := by
  rw [diagnostics, document, held]
  simp only [json]

/-- Of the diagnostics of an IDL document, those with a disabled code are left out. -/
theorem diagnostics_idl (held : s.document? uri = some d) (tree : d.tree?.isSome = true)
    (opts : CheckOptions) {codes : List Nat} (semantic : ∀ code ∈ codes, 3000 ≤ code) (c : Cache) :
    ∃ found, (s.diagnostics (opts.disabling []) none c uri).2 = .ok found ∧
      (s.diagnostics (opts.disabling codes) none c uri).2 =
        .ok (found.filter fun p => !codes.contains p.code) := by
  obtain ⟨t, tree⟩ := Option.isSome_iff_exists.mp tree
  have syntactic : (t.diagnostics.map fun p => { p with uri }).filter
      (fun p => !codes.contains p.code) = t.diagnostics.map fun p => { p with uri } := by
    refine List.filter_eq_self.mpr fun reported mem => ?_
    obtain ⟨p, found, rfl⟩ := List.mem_map.mp mem
    have low := Element.code_diagnosticsFrom 0 t.element p found
    have other : p.code ∉ codes := fun mem => Nat.not_le_of_lt low (semantic _ mem)
    simpa using other
  simp only [diagnostics, document, held, tree]
  refine ⟨_, rfl, ?_⟩
  rw [List.filter_append, syntactic, ← CheckOptions.check_disabling]

end Snapshot

/-! ## The same project with checks disabled -/

def ProjectOptions.disabling (options : ProjectOptions) (codes : List Nat) : ProjectOptions :=
  { options with check := options.check.disabling codes }

namespace Project

variable {codes : List Nat}

def disabling (p : Project) (codes : List Nat) : Project :=
  { p with options := p.options.disabling codes }

theorem schedule_disabling (p : Project) (d : Document) :
    (p.disabling codes).schedule d = (p.schedule d).disabling codes := by
  have asked (keys : List LinkKey) (p : Project) :
      keys.foldl ask (p.disabling codes) = (keys.foldl ask p).disabling codes := by
    induction keys generalizing p with
    | nil => rfl
    | cons key rest ih =>
      have first : (p.disabling codes).ask key = (p.ask key).disabling codes := by
        unfold ask
        split_ifs <;> first | rfl | contradiction
      rw [List.foldl_cons, List.foldl_cons, first, ih]
  cases closed : p.closed with
  | true => simp [schedule, disabling, closed]
  | false => rw [schedule_eq closed, schedule_eq (p := p.disabling codes) closed, asked]

theorem publish_disabling (p : Project) (d : Document) :
    (p.disabling codes).publish d = (p.publish d).disabling codes := by
  have same : ((p.put d).disabling codes).schedule d = ((p.put d).schedule d).disabling codes :=
    schedule_disabling (p.put d) d
  rw [publish_eq, publish_eq]
  exact congrArg (fun p : Project => p.sweep.advance) same

theorem refresh_disabling (p : Project) :
    (p.disabling codes).refresh = p.refresh.disabling codes := by
  have scheduled (docs : List Document) (p : Project) :
      docs.foldl schedule (p.disabling codes) = (docs.foldl schedule p).disabling codes := by
    induction docs generalizing p with
    | nil => rfl
    | cons d rest ih => rw [List.foldl_cons, List.foldl_cons, schedule_disabling, ih]
  rw [refresh_eq, refresh_eq]
  exact congrArg Project.advance (scheduled p.now.docs p.retry)

theorem update_disabling (p : Project) (uri : Bytes) (edit : Edit) :
    ((p.disabling codes).update uri edit).1 = (p.update uri edit).1.disabling codes := by
  have docs : (p.disabling codes).now.document? uri = p.now.document? uri := rfl
  unfold Project.update
  rw [docs]
  split
  next => rfl
  next old loaded =>
    have same : ((p.disabling codes).interrupt uri).edited old edit =
        (p.interrupt uri).edited old edit := rfl
    dsimp only
    rw [same]
    split
    next => rfl
    next d edited => exact publish_disabling (p.interrupt uri) d

theorem finishLoad_disabling (p : Project) (key : LinkKey)
    (outcome : Except LoadError (Bytes × Bytes)) :
    (p.disabling codes).finishLoad key outcome = (p.finishLoad key outcome).disabling codes := by
  cases running : p.closed with
  | true => simp [finishLoad, disabling, running]
  | false =>
    cases asked : p.now.links.status? key with
    | none => rw [finishLoad_of_none asked, finishLoad_of_none (p := p.disabling codes) asked]; rfl
    | some status =>
      have asked : (p.now.links.status? key).isSome = true := by rw [asked]; rfl
      have ends (found : Option Document) :
          (found.elim ((p.disabling codes).settleLink key outcome)
            ((p.disabling codes).settleLink key outcome).publish).advance =
          (found.elim (p.settleLink key outcome)
            (p.settleLink key outcome).publish).advance.disabling codes := by
        cases found with
        | none => rfl
        | some d => exact congrArg Project.advance (publish_disabling (p.settleLink key outcome) d)
      rw [finishLoad_of_some running asked,
        finishLoad_of_some (p := p.disabling codes) running asked]
      exact ends _

/-- What is disabled makes no difference to what happens. -/
theorem undergo_disabling (p : Project) (o : Occurrence) :
    (p.disabling codes).undergo o = (p.undergo o).disabling codes := by
  cases o with
  | openDocument uri text => exact publish_disabling (p.mark uri) (p.opening uri text)
  | update uri edit => exact update_disabling p uri edit
  | refresh => exact refresh_disabling p
  | finishLoad key outcome => exact finishLoad_disabling p key outcome
  | closeDocument | beginAnalysis | resolve | references | close => rfl
  | finishAnalysis a canceled =>
    have same := a.snapshot.cache_diagnostics (p.disabling codes).options.check p.options.check
      (p.interruption? a canceled) p.cache a.uri
    exact congrArg (fun cache => { p.disabling codes with
      cache, running := p.running.filter (· ≠ (a.uri, a.run)) }) same
  | diagnose s interrupt uri =>
    have same := s.cache_diagnostics (p.disabling codes).options.check p.options.check interrupt
      p.cache uri
    exact congrArg (fun cache => { p.disabling codes with cache }) same

theorem after_disabling (options : ProjectOptions) (codes : List Nat)
    (occurrences : List Occurrence) :
    after (options.disabling codes) occurrences = (after options occurrences).disabling codes := by
  have run (p : Project) :
      occurrences.foldl undergo (p.disabling codes) = (occurrences.foldl undergo p).disabling codes := by
    induction occurrences generalizing p with
    | nil => rfl
    | cons o rest ih => rw [List.foldl_cons, List.foldl_cons, undergo_disabling, ih]
  exact run { options }

/-- A snapshot is taken of a project and asked later for the diagnostics of a document. With checks
disabled the same happens to the project, and the answer is the same for a JSON document. For an IDL
document the diagnostics with a disabled code are left out. -/
theorem diagnostics_disabling (options : ProjectOptions) (codes : List Nat)
    (semantic : ∀ code ∈ codes, 3000 ≤ code ∧ code ≤ 4999) (earlier later : List Occurrence)
    (uri : Bytes) (d : Document)
    (held : (after (options.disabling []) earlier).now.document? uri = some d) :
    let s := (after (options.disabling []) earlier).now
    let p := after (options.disabling []) (earlier ++ later)
    let p' := after (options.disabling codes) (earlier ++ later)
    (after (options.disabling codes) earlier).now = s ∧
      ∃ found, (s.diagnostics p.options.check none p.cache uri).2 = .ok found ∧
        (s.diagnostics p'.options.check none p'.cache uri).2 =
          .ok (if d.kind = .idl then found.filter fun e => !codes.contains e.code else found) := by
  have same := after_disabling options codes
  have bare := after_disabling options []
  have cache (occurrences : List Occurrence) :
      (after (options.disabling codes) occurrences).cache =
        (after (options.disabling []) occurrences).cache := by
    rw [same, bare]
    rfl
  have check (codes : List Nat) (occurrences : List Occurrence) :
      (after (options.disabling codes) occurrences).options.check =
        (after options occurrences).options.check.disabling codes := by
    rw [after_disabling]
    rfl
  dsimp only
  rw [cache, check, check]
  refine ⟨by rw [same, bare]; rfl, ?_⟩
  have typed := (typed_after _ _ d (Snapshot.mem_of_document? held).1).2
  split_ifs with kind
  · exact Snapshot.diagnostics_idl held (typed.mpr kind) _ (fun code mem => (semantic code mem).1) _
  · have json : d.tree? = none := by simpa using mt typed.mp kind
    exact ⟨_, Snapshot.diagnostics_json held json _ _, Snapshot.diagnostics_json held json _ _⟩

/-- A record with an unknown type, a default value that does not fit and two fields of one name, and
a schema that is no JSON. -/
def faulty : List Occurrence :=
  [.openDocument "/a.avdl" "record A { B b; int i = true; int i; }", .openDocument "/a.avsc" "\x7b"]

theorem diagnostics_disabling_faulty :
    (∀ code ∈ [3100, 3200], 3000 ≤ code ∧ code ≤ 4999) ∧
      ∃ d, (after (ProjectOptions.disabling {} []) faulty).now.document? "/a.avdl" = some d ∧
        let s := (after (ProjectOptions.disabling {} []) faulty).now
        let p := after (ProjectOptions.disabling {} []) faulty
        let p' := after (ProjectOptions.disabling {} [3100, 3200]) faulty
        ∃ found, (s.diagnostics p.options.check none p.cache "/a.avdl").2 = .ok found ∧
          (s.diagnostics p'.options.check none p'.cache "/a.avdl").2 =
            .ok (if d.kind = .idl then found.filter fun e => !([3100, 3200].contains e.code)
              else found) := by
  have semantic : ∀ code ∈ [3100, 3200], 3000 ≤ code ∧ code ≤ 4999 := by decide
  have held : ((after (ProjectOptions.disabling {} []) faulty).now.document? "/a.avdl").isSome =
      true := by decide +kernel
  obtain ⟨d, found⟩ := Option.isSome_iff_exists.mp held
  exact ⟨semantic, d, found, (diagnostics_disabling {} [3100, 3200] semantic faulty [] _ d found).2⟩

/-- A schema that is no JSON is reported although the code is disabled. -/
theorem diagnostics_schema_disabled :
    let p := after (ProjectOptions.disabling {} [3002]) faulty
    (p.now.diagnostics p.options.check none p.cache "/a.avsc").2.toOption.map
      (·.map Diagnostic.code) = some [3002] := by
  decide +kernel

end Project

end AvroIdl
