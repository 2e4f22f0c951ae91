import CatalogEdit.Proofs.Rule.Broken
import CatalogEdit.Proofs.Text.Utf8

/-!
# The first broken rule is reported

A check goes through the broken rules of a value part by part. The lists it goes through are put
together from lists for the parts, and what is said of the parts is carried over to the whole as
long as the parts have no place in common.

## Main definitions

* `Violation.IsReport` — a list of all broken rules that begins at the first place with one.
* `Response.FirstBroken` — a rule is broken, and none is broken at an earlier place.

## Main statements

* `Violation.IsReport.append` — reports are put together.
* `Edit.isReport_violations`, `Selection.isReport_violations`, `Response.isReport_violations` — what
  a check goes through.
* `Response.check_reports_first` — what a check of a response answers.
-/

namespace CatalogEdit

namespace Violation

/-! ## Reports -/

/-- A list of the broken rules of a value whose rules stand at the given places. Its head is broken
at the first of these places at which any rule is broken. -/
structure IsReport (breaks : Violation → Prop) (places : List Path) (vs : List Violation) :
    Prop where
  mem_iff : ∀ v, v ∈ vs ↔ breaks v
  path_mem : ∀ v ∈ vs, v.path ∈ places
  eq_of_path_eq : ∀ u ∈ vs, ∀ v ∈ vs, u.path = v.path → u = v
  head : ∀ v ∈ vs.head?, ∃ before after, places = before ++ v.path :: after ∧
    ∀ u ∈ vs, u.path ∉ before

variable {breaks breaks' : Violation → Prop} {places places' : List Path} {vs vs' : List Violation}

theorem IsReport.congr (h : IsReport breaks places vs) (hiff : ∀ v, breaks v ↔ breaks' v) :
    IsReport breaks' places vs where
  mem_iff v := (h.mem_iff v).trans (hiff v)
  path_mem := h.path_mem
  eq_of_path_eq := h.eq_of_path_eq
  head := h.head

/-- Nothing is broken, whatever the places are. -/
theorem isReport_nil (h : ∀ v, ¬ breaks v) : IsReport breaks places [] where
  mem_iff v := by simp [h v]
  path_mem := nofun
  eq_of_path_eq := nofun
  head := nofun

/-- One rule at one place, however often it is reported. -/
theorem isReport_of_forall_eq {w : Violation} (h : ∀ v ∈ vs, v = w) :
    IsReport (· ∈ vs) [w.path] vs where
  mem_iff _ := Iff.rfl
  path_mem v hv := by simp [h v hv]
  eq_of_path_eq u hu v hv _ := (h u hu).trans (h v hv).symm
  head v hv := ⟨[], [], by simp [h v (List.mem_of_mem_head? hv)], by simp⟩

theorem isReport_ensure (sound : Bool) (path : Path) (rule : Rule) :
    IsReport (fun v => v = ⟨path, rule⟩ ∧ sound = false) [path] (ensure sound path rule) := by
  cases sound with
  | true => exact isReport_nil (by simp)
  | false =>
    have hreport : IsReport (· ∈ [⟨path, rule⟩]) [path] [⟨path, rule⟩] :=
      isReport_of_forall_eq (w := ⟨path, rule⟩) (by simp)
    exact hreport.congr (by simp)

theorem isReport_ofOption {α : Type} {check : α → List Violation} {o : Option α}
    {breaks : α → Violation → Prop} (h : ∀ a, IsReport (breaks a) places (check a)) :
    IsReport (fun v => ∃ a, o = some a ∧ breaks a v) places (ofOption check o) := by
  cases o with
  | none => exact isReport_nil (by simp)
  | some a => exact (h a).congr (by simp)

theorem isReport_ofOption_ensure {α : Type} (sound : α → Bool) (path : Path) (rule : Rule)
    (o : Option α) :
    IsReport (fun v => ∃ a, o = some a ∧ v = ⟨path, rule⟩ ∧ sound a = false) [path]
      (ofOption (fun a => ensure (sound a) path rule) o) :=
  isReport_ofOption fun _ => isReport_ensure _ _ _

/-- Reports on parts that have no place in common make up a report on the whole. -/
theorem IsReport.append (h : IsReport breaks places vs) (h' : IsReport breaks' places' vs')
    (hdisjoint : ∀ p ∈ places, p ∉ places') :
    IsReport (fun v => breaks v ∨ breaks' v) (places ++ places') (vs ++ vs') where
  mem_iff v := by rw [List.mem_append, h.mem_iff, h'.mem_iff]
  path_mem v hv := List.mem_append.mpr ((List.mem_append.mp hv).imp (h.path_mem v) (h'.path_mem v))
  eq_of_path_eq u hu v hv hpath := by
    rcases List.mem_append.mp hu with hu | hu <;> rcases List.mem_append.mp hv with hv | hv
    · exact h.eq_of_path_eq u hu v hv hpath
    · exact absurd (h'.path_mem v hv) (hdisjoint _ (hpath ▸ h.path_mem u hu))
    · exact absurd (h'.path_mem u hu) (hdisjoint _ (hpath ▸ h.path_mem v hv))
    · exact h'.eq_of_path_eq u hu v hv hpath
  head v hv := by
    have hlater : ∀ u ∈ vs', u.path ∉ places := fun u hu hmem =>
      hdisjoint _ hmem (h'.path_mem u hu)
    cases vs with
    | nil =>
      obtain ⟨before, after, rfl, hbefore⟩ := h'.head v hv
      refine ⟨places ++ before, after, by simp, fun u hu hmem => ?_⟩
      exact (List.mem_append.mp hmem).elim (hlater u hu) (hbefore u hu)
    | cons w rest =>
      obtain ⟨before, after, heq, hbefore⟩ := h.head v hv
      refine ⟨before, after ++ places', by rw [heq]; simp, fun u hu hmem => ?_⟩
      rcases List.mem_append.mp hu with hu | hu
      · exact hbefore u hu hmem
      · exact hlater u hu (heq ▸ List.mem_append_left _ hmem)

/-- The head of a report is the broken rule before which none is broken. -/
theorem IsReport.head?_eq_some_iff (h : IsReport breaks places vs) {v : Violation} :
    vs.head? = some v ↔ breaks v ∧ ∃ before after, places = before ++ v.path :: after ∧
      ∀ p ∈ before, ∀ rule, ¬ breaks ⟨p, rule⟩ := by
  constructor
  · intro hv
    obtain ⟨before, after, heq, hbefore⟩ := h.head v hv
    refine ⟨(h.mem_iff v).mp (List.mem_of_mem_head? hv), before, after, heq, ?_⟩
    exact fun p hp rule hbroken => hbefore _ ((h.mem_iff _).mpr hbroken) hp
  · rintro ⟨hv, before, after, heq, hbefore⟩
    have hmem := (h.mem_iff v).mpr hv
    obtain ⟨w, hw⟩ : ∃ w, vs.head? = some w := by
      cases vs with
      | nil => exact absurd hmem List.not_mem_nil
      | cons w rest => exact ⟨w, rfl⟩
    obtain ⟨before', after', heq', hbefore'⟩ := h.head w hw
    have hwmem := List.mem_of_mem_head? hw
    -- Neither of the two places comes before the other one.
    have hpath : w.path = v.path := by
      rcases List.append_eq_append_iff.mp (heq'.symm.trans heq) with
        ⟨gap, rfl, hgap⟩ | ⟨gap, rfl, hgap⟩
      · cases gap with
        | nil => exact (List.cons.inj hgap).1
        | cons p gap =>
          obtain ⟨rfl, -⟩ := List.cons.inj hgap
          exact absurd ((h.mem_iff w).mp hwmem) (hbefore _ (by simp) w.rule)
      · cases gap with
        | nil => exact (List.cons.inj hgap).1.symm
        | cons p gap =>
          obtain ⟨rfl, -⟩ := List.cons.inj hgap
          exact absurd (by simp) (hbefore' v hmem)
    rw [hw, h.eq_of_path_eq w hwmem v hmem hpath]

end Violation

open Violation

/-! ## Changes -/

theorem isReport_finite {path : Path} {x : Binary64} :
    IsReport (fun v => v = ⟨path, .finiteNumber⟩ ∧ x.isFinite = false) [path] (finite path x) :=
  isReport_ensure _ _ _

theorem isReport_notEmpty {path : Path} {t : Text} :
    IsReport (fun v => v = ⟨path, .notEmpty⟩ ∧ t = []) [path] (notEmpty path t) :=
  (isReport_ensure _ _ _).congr (by simp)

theorem PriceChange.isReport_violations (path : Path) (c : PriceChange) :
    IsReport (c.Breaks path) (places path) (c.violations path) := by
  have hcurrency := isReport_ofOption_ensure isCurrencyCode (path.field "currency") .currencyCode
    c.currency
  have hprecision := isReport_ofOption_ensure (fun r : Rounding => isPrecision r.precision)
    ((path.field "round").field "precision") .unitInterval c.rounding
  refine IsReport.congr ((isReport_finite.append hcurrency ?_).append hprecision ?_) fun v => ?_
  · simp
  · simp [Path.field]
  · constructor
    · rintro ((⟨rfl, h⟩ | ⟨code, hcode, rfl, h⟩) | ⟨r, hr, rfl, h⟩)
      · exact .value h
      · exact .currency hcode (mt isCurrencyCode_iff.mpr (by simp [h]))
      · exact .precision hr (mt isPrecision_iff.mpr (by simp [h]))
    · rintro (h | ⟨hcode, h⟩ | ⟨hr, h⟩)
      · exact .inl (.inl ⟨rfl, h⟩)
      · exact .inl (.inr ⟨_, hcode, rfl, Bool.eq_false_iff.mpr (mt isCurrencyCode_iff.mp h)⟩)
      · exact .inr ⟨_, hr, rfl, Bool.eq_false_iff.mpr (mt isPrecision_iff.mp h)⟩

/-- Tags are reported by their position, counted from `start`. -/
theorem isReport_tags (path : Path) (tags : List Text) (start : Nat) :
    IsReport (fun v => ∃ i, tags[i]? = some [] ∧ v = ⟨path.item (start + i), .notEmpty⟩)
      ((List.range' start tags.length).map path.item)
      ((tags.zipIdx start).flatMap fun (tag, index) => notEmpty (path.item index) tag) := by
  induction tags generalizing start with
  | nil => exact isReport_nil (by simp)
  | cons tag tags ih =>
    refine IsReport.congr (isReport_notEmpty.append (ih (start + 1)) ?_) fun v => ?_
    · simp only [List.mem_singleton, forall_eq, List.mem_map, List.mem_range'_1, Path.item_inj]
      omega
    · constructor
      · rintro (⟨rfl, rfl⟩ | ⟨i, hi, rfl⟩)
        · exact ⟨0, rfl, rfl⟩
        · exact ⟨i + 1, hi, by rw [Nat.add_right_comm, Nat.add_assoc]⟩
      · rintro ⟨i, hi, rfl⟩
        cases i with
        | zero => exact .inl ⟨rfl, Option.some.inj hi⟩
        | succ i => exact .inr ⟨i, hi, by rw [Nat.add_right_comm, Nat.add_assoc]⟩

theorem TagChange.isReport_violations (path : Path) (c : TagChange) :
    IsReport (c.Breaks path) (c.places path) (c.violations path) := by
  have htags := isReport_tags (path.field "values") c.values 0
  rw [← List.range_eq_range'] at htags
  refine IsReport.congr ((isReport_ensure _ _ _).append htags ?_) fun v => ?_
  · simp [Path.item]
  · constructor
    · rintro (⟨rfl, h⟩ | ⟨i, hi, rfl⟩)
      · exact .none (by simpa using h)
      · exact .empty (by simpa using hi)
    · rintro (h | h)
      · exact .inl ⟨rfl, by simpa using h⟩
      · exact .inr ⟨_, h, by simp⟩

theorem InventoryChange.isReport_violations (path : Path) (c : InventoryChange) :
    IsReport (c.Breaks path) (places path) (c.violations path) := by
  have hlocation := isReport_ofOption_ensure (fun t : Text => !t.isEmpty)
    (path.field "locationId") .notEmpty c.location
  refine IsReport.congr ((isReport_ensure _ _ _).append hlocation ?_) fun v => ?_
  · simp
  · constructor
    · rintro (⟨rfl, h⟩ | ⟨t, ht, rfl, h⟩)
      · exact .value (by simpa using h)
      · obtain rfl : t = [] := by simpa using h
        exact .location ht
    · rintro (h | h)
      · exact .inl ⟨rfl, by simpa using h⟩
      · exact .inr ⟨[], h, rfl, rfl⟩

theorem MetafieldValue.isReport_violations (path : Path) (value : MetafieldValue) :
    IsReport (fun v => ∃ x, value = .number x ∧ v = ⟨path, .finiteNumber⟩ ∧ x.isFinite = false)
      [path] (value.violations path) := by
  cases value with
  | number x => exact isReport_finite.congr (by simp)
  | null | text | flag => exact isReport_nil (by simp)

theorem Metafield.isReport_violations (path : Path) (m : Metafield) :
    IsReport (m.Breaks path) (places path) (m.violations path) := by
  have hvalue : IsReport _ [path.field "value"] _ :=
    isReport_ofOption (o := m.value) (MetafieldValue.isReport_violations (path.field "value"))
  refine IsReport.congr (((isReport_notEmpty.append isReport_notEmpty ?_).append
    isReport_notEmpty ?_).append hvalue ?_) fun v => ?_
  · simp
  · simp
  · simp
  · constructor
    · rintro (((⟨rfl, h⟩ | ⟨rfl, h⟩) | ⟨rfl, h⟩) | ⟨_, hvalue, x, rfl, rfl, h⟩)
      · exact .ns h
      · exact .key h
      · exact .type h
      · exact .value hvalue h
    · rintro (h | h | h | ⟨hvalue, h⟩)
      · exact .inl (.inl (.inl ⟨rfl, h⟩))
      · exact .inl (.inl (.inr ⟨rfl, h⟩))
      · exact .inl (.inr ⟨rfl, h⟩)
      · exact .inr ⟨_, hvalue, _, rfl, rfl, h⟩

theorem Seo.isReport_violations (path : Path) (s : Seo) :
    IsReport (s.Breaks path) (places path) (s.violations path) := by
  have hbound : ∀ (name : String) (limit : Nat) (o : Option Text), _ := fun name limit o =>
    isReport_ofOption_ensure (fun t : Text => decide (t.codePoints ≤ limit)) (path.field name)
      (.atMostCharacters limit) o
  refine IsReport.congr ((hbound "title" maxTitle s.title).append
    (hbound "description" maxDescription s.description) ?_) fun v => ?_
  · simp
  · constructor
    · rintro (⟨t, ht, rfl, h⟩ | ⟨t, ht, rfl, h⟩)
      · exact .title ht (by simpa using h)
      · exact .description ht (by simpa using h)
    · rintro (⟨ht, h⟩ | ⟨ht, h⟩)
      · exact .inl ⟨_, ht, rfl, by simpa using h⟩
      · exact .inr ⟨_, ht, rfl, by simpa using h⟩

theorem Change.isReport_violations (path : Path) (change : Change) :
    IsReport (change.Breaks path) (change.places path) (change.violations path) := by
  cases change with
  | price c =>
    exact (c.isReport_violations path).congr fun v => ⟨.price, fun | .price h => h⟩
  | compareAt c =>
    exact (c.isReport_violations path).congr fun v => ⟨.compareAt, fun | .compareAt h => h⟩
  | tags c => exact (c.isReport_violations path).congr fun v => ⟨.tags, fun | .tags h => h⟩
  | inventory c =>
    exact (c.isReport_violations path).congr fun v => ⟨.inventory, fun | .inventory h => h⟩
  | status s => exact isReport_nil nofun
  | metafield m =>
    exact (m.isReport_violations _).congr fun v => ⟨.metafield, fun | .metafield h => h⟩
  | seo s => exact (s.isReport_violations _).congr fun v => ⟨.seo, fun | .seo h => h⟩

/-! ## Edits and selections -/

theorem Edit.isReport_violations (e : Edit) :
    IsReport e.Breaks e.places e.violations := by
  have hschedule := isReport_ofOption_ensure Timestamp.isTimestamp (Edit.root.field "schedule")
    .timestamp e.schedule
  refine IsReport.congr (hschedule.append (e.change.isReport_violations _) ?_) fun v => ?_
  · intro p hp hmem
    obtain rfl := List.mem_singleton.mp hp
    exact Path.not_prefix_field_field (by decide) (List.prefix_refl _)
      (Change.prefix_of_mem_places hmem)
  · constructor
    · rintro (⟨s, hs, rfl, h⟩ | h)
      · exact .schedule hs h
      · exact .change h
    · rintro (⟨hs, h⟩ | h)
      · exact .inl ⟨_, hs, rfl, h⟩
      · exact .inr h

theorem Selection.isReport_violations (s : Selection) :
    IsReport s.Breaks places s.violations := by
  have hbound : ∀ (name : String) (o : Option Binary64), _ := fun name o =>
    isReport_ofOption_ensure Binary64.isFinite ((Selection.root.field "numeric").field name)
      .finiteNumber o
  refine IsReport.congr (((hbound "priceGte" s.numeric.priceAtLeast).append
    (hbound "priceLte" s.numeric.priceAtMost) ?_).append
    (hbound "inventoryEq" s.numeric.inventoryEquals) ?_) fun v => ?_
  · simp
  · simp
  · constructor
    · rintro ((⟨x, hx, rfl, h⟩ | ⟨x, hx, rfl, h⟩) | ⟨x, hx, rfl, h⟩)
      · exact .priceAtLeast hx h
      · exact .priceAtMost hx h
      · exact .inventoryEquals hx h
    · rintro (⟨hx, h⟩ | ⟨hx, h⟩ | ⟨hx, h⟩)
      · exact .inl (.inl ⟨_, hx, rfl, h⟩)
      · exact .inl (.inr ⟨_, hx, rfl, h⟩)
      · exact .inr ⟨_, hx, rfl, h⟩

/-! ## Responses -/

theorem Edit.notMem_places_append {e : Edit} {p : Path} (h : p ∈ e.places) :
    p ∉ Selection.places :=
  fun hmem => Path.not_prefix_field_field (p := []) (by decide) (prefix_of_mem_places h)
    (Selection.prefix_of_mem_places hmem)

theorem Plan.isReport_violations (p : Plan) :
    IsReport (Response.plan p).Breaks (Response.plan p).places p.violations := by
  refine (p.edit.isReport_violations.append p.selection.isReport_violations fun _ =>
    Edit.notMem_places_append).congr fun v => ?_
  constructor
  · rintro (h | h)
    · exact .planEdit h
    · exact .planSelection h
  · rintro (h | h)
    · exact .inl h
    · exact .inr h

/-- Every issue without a message is reported at the one place that all messages share. -/
theorem isReport_issues (issues : List Issue) :
    IsReport (fun v => ∃ i ∈ issues, i.messageKey = [] ∧
        v = ⟨(Path.ofField "issues").field "messageKey", .notEmpty⟩)
      [(Path.ofField "issues").field "messageKey"] (issues.flatMap Issue.violations) := by
  have hmem : ∀ v, v ∈ issues.flatMap Issue.violations ↔ ∃ i ∈ issues, i.messageKey = [] ∧
      v = ⟨(Path.ofField "issues").field "messageKey", .notEmpty⟩ := fun v => by
    simp only [List.mem_flatMap, Issue.violations, isReport_notEmpty.mem_iff, and_comm]
  refine (isReport_of_forall_eq (w := ⟨_, .notEmpty⟩) fun v hv => ?_).congr hmem
  obtain ⟨i, -, -, rfl⟩ := (hmem v).mp hv
  rfl

theorem isReport_edit? (o : Option Edit) :
    IsReport (fun v => ∃ e, o = some e ∧ e.Breaks v) ((o.map Edit.places).getD [])
      (ofOption Edit.violations o) := by
  cases o with
  | none => exact isReport_nil (by simp)
  | some e => exact e.isReport_violations.congr (by simp)

theorem Draft.not_prefix_issues {o : Option Edit} {p : Path}
    (h : p ∈ (o.map Edit.places).getD [] ++ Selection.places) : ¬ Path.ofField "issues" <+: p := by
  rcases List.mem_append.mp h with h | h
  · cases o with
    | none => exact absurd h List.not_mem_nil
    | some e =>
      exact Path.not_prefix_field_field (p := []) (by decide) (Edit.prefix_of_mem_places h)
  · exact Path.not_prefix_field_field (p := []) (by decide) (Selection.prefix_of_mem_places h)

theorem Draft.ofOption_violations (o : Option Draft) :
    ofOption violations o = ofOption Edit.violations (o.bind edit) ++
      ofOption Selection.violations (o.bind selection) := by
  cases o <;> rfl

theorem Clarification.isReport_violations (c : Clarification) :
    IsReport (Response.clarification c).Breaks (Response.clarification c).places
      c.violations := by
  have hdraft := (isReport_edit? (c.draft.bind Draft.edit)).append
    (isReport_ofOption (o := c.draft.bind Draft.selection) Selection.isReport_violations)
    fun p hp => by
      cases he : c.draft.bind Draft.edit with
      | none => simp [he] at hp
      | some e => exact e.notMem_places_append (by simpa [he] using hp)
  rw [← Draft.ofOption_violations] at hdraft
  have hissues :=
    (isReport_ensure (!c.issues.isEmpty) (Path.ofField "issues") .atLeastOneIssue).append
      (isReport_issues c.issues) (by simp [Path.ofField, Path.field])
  refine IsReport.congr (hissues.append hdraft ?_) fun v => ?_
  · intro p hp hmem
    refine Draft.not_prefix_issues hmem ?_
    simp only [List.mem_append, List.mem_singleton] at hp
    rcases hp with rfl | rfl
    · exact List.prefix_refl _
    · exact Path.prefix_field _ _
  · constructor
    · rintro ((⟨rfl, h⟩ | ⟨i, hi, h, rfl⟩) | ⟨e, he, h⟩ | ⟨s, hs, h⟩)
      · exact .noIssue (by simpa using h)
      · exact .messageKey hi h
      · obtain ⟨d, hd, he⟩ := Option.bind_eq_some_iff.mp he
        exact .draftEdit hd he h
      · obtain ⟨d, hd, hs⟩ := Option.bind_eq_some_iff.mp hs
        exact .draftSelection hd hs h
    · rintro (_ | _ | h | ⟨hi, h⟩ | ⟨hd, he, h⟩ | ⟨hd, hs, h⟩)
      · exact .inl (.inl ⟨rfl, by simpa using h⟩)
      · exact .inl (.inr ⟨_, hi, h, rfl⟩)
      · exact .inr (.inl ⟨_, Option.bind_eq_some_iff.mpr ⟨_, hd, he⟩, h⟩)
      · exact .inr (.inr ⟨_, Option.bind_eq_some_iff.mpr ⟨_, hd, hs⟩, h⟩)

theorem Refusal.isReport_violations (r : Refusal) :
    IsReport (Response.refusal r).Breaks (Response.refusal r).places r.violations :=
  isReport_notEmpty.congr fun _ => ⟨fun ⟨heq, h⟩ => heq ▸ .code h, fun | .code h => ⟨rfl, h⟩⟩

theorem Response.isReport_violations (r : Response) :
    IsReport r.Breaks r.places r.violations := by
  cases r with
  | plan p => exact p.isReport_violations
  | clarification c => exact c.isReport_violations
  | refusal r => exact r.isReport_violations

example :
    (Response.plan ⟨{ change := .tags ⟨.add, [utf8 "sale", [], []]⟩ }, {}, .medium, none⟩).check =
      .error ⟨((Edit.root.field "params").field "values").item 1, .notEmpty⟩ := by
  decide

end CatalogEdit
