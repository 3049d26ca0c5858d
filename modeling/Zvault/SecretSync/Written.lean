import Mathlib.Data.List.Nodup
import Zvault.SecretSync.Github

/-!
# What a push writes

The names that a push leaves at the target, and what it reports of them, whatever
GitHub answers.
-/

namespace Zvault.SecretSync

open ProjectSync Text

theorem nameProblem_upper (name : String) : nameProblem (upper name) = nameProblem name := by
  have hunderscore : ∀ c : Char, (c.toUpper == '_') = (c == '_') := by
    intro c
    rw [Bool.eq_iff_iff, beq_iff_eq, beq_iff_eq]
    exact toUpper_eq_iff (by decide)
  have hall : ∀ cs : List Char, (cs.map Char.toUpper).all (fun c => c.isAlphanum || c == '_') =
      cs.all fun c => c.isAlphanum || c == '_' := by
    intro cs
    simp only [List.all_map, Function.comp_def, isAlphanum_toUpper, hunderscore]
  unfold nameProblem
  rw [upper_upper, toList_upper]
  cases name.toList with
  | nil => rfl
  | cons c cs => simp only [List.map_cons, isAlpha_toUpper, hunderscore, hall]

section Loops

variable (what : String) (service : Service) (usable : Bool)

/-- The answer to a put that ends the push. -/
def Answer.ends : Answer → Bool
  | .status code _ => code = 401
  | .lost _ => true

/-- The upload of an item that ends the push. -/
def Ends (item : Item) : Bool :=
  (itemProblem item).isNone && (!usable || (service.put item.name).ends)

/-- The upload of an item that GitHub carries out. -/
def Stores (item : Item) : Bool :=
  (itemProblem item).isNone && usable && (service.put item.name).stores

/-- The items that are at the target when the first loop is over. -/
def written : List Item → List Item
  | [] => []
  | item :: items =>
    (if Stores service usable item then [item] else []) ++
      if Ends service usable item then [] else written items

/-- The deletion of a name that ends the push. -/
def DeletionLost (name : String) : Bool :=
  (nameProblem name).isNone && (service.delete name matches .lost _)

/-- The deletion of a name after which it is gone. -/
def Deletes (name : String) : Bool :=
  (nameProblem name).isNone && (service.delete name).deletes

theorem Remote.mem_put {remote : Remote} {name : String} {a : Answer} {w : String} :
    w ∈ remote.put name a ↔ w ∈ remote ∨ (a.stores = true ∧ upper name = w) := by
  unfold Remote.put
  split <;> rename_i h
  · rw [List.mem_cons, or_comm, eq_comm, and_iff_right h]
  · rw [or_iff_left fun h' => h h'.1]

theorem Remote.mem_delete {remote : Remote} {name : String} {a : Answer} {w : String} :
    w ∈ remote.delete name a ↔ w ∈ remote ∧ ¬ (a.deletes = true ∧ upper name = w) := by
  unfold Remote.delete
  split <;> rename_i h
  · rw [List.mem_filter, decide_eq_true_iff, and_iff_right h, ne_eq, eq_comm]
  · rw [and_iff_left fun h' => h h'.1]

theorem mem_of_mem_written {items : List Item} {item : Item}
    (h : item ∈ written service usable items) : item ∈ items ∧ Stores service usable item = true := by
  induction items with
  | nil => exact absurd h List.not_mem_nil
  | cons i items ih =>
    rw [written, List.mem_append] at h
    rcases h with h | h
    · split at h <;> rename_i hstores
      · cases List.mem_singleton.mp h
        exact ⟨List.mem_cons_self, hstores⟩
      · exact absurd h List.not_mem_nil
    · split at h
      · exact absurd h List.not_mem_nil
      · exact ⟨List.mem_cons_of_mem _ (ih h).1, (ih h).2⟩

theorem written_of_not_ends {items : List Item}
    (h : items.any (Ends service usable) = false) :
    written service usable items = items.filter (Stores service usable) := by
  induction items with
  | nil => rfl
  | cons item items ih =>
    rw [List.any_cons, Bool.or_eq_false_iff] at h
    rw [written, h.1, ih h.2, List.filter_cons]
    split <;> rfl

theorem checkError_eq (code : ℕ) (message : String) :
    (code = 401 ∧ checkError what code message = .unauthorized 401) ∨
      (code ≠ 401 ∧ ∃ text, checkError what code message = .provider text) := by
  unfold checkError
  split_ifs with h
  · exact Or.inl ⟨h, rfl⟩
  all_goals exact Or.inr ⟨h, _, rfl⟩

/-- What the first loop leaves at the target, and what it reports. -/
theorem upload_spec (items : List Item) (report : Report) (remote : Remote) :
    (∀ w, w ∈ (upload what service usable items report remote).2 ↔
      w ∈ remote ∨ ∃ item ∈ written service usable items, upper item.name = w) ∧
    (match (upload what service usable items report remote).1 with
      | .error _ => items.any (Ends service usable) = true
      | .ok report' => items.any (Ends service usable) = false ∧
          report'.pushed = report.pushed ++ (items.filter (Stores service usable)).map (·.name) ∧
          report'.failedNames = report.failedNames ++
            (items.filter fun item => !Stores service usable item).map (·.name)) := by
  induction items generalizing report remote with
  | nil => simp [upload, written, List.any_nil]
  | cons item items ih =>
    unfold upload
    cases hproblem : itemProblem item with
    | some why =>
      have hends : Ends service usable item = false := by simp [Ends, hproblem]
      have hstores : Stores service usable item = false := by simp [Stores, hproblem]
      have := ih (report.addFailed item.name why) remote
      simpa [written, hends, hstores, Report.addFailed, Report.failedNames] using this
    | none =>
      dsimp only
      cases usable with
      | false =>
        simp [written, Ends, Stores, hproblem]
      | true =>
        have hends : Ends service true item = (service.put item.name).ends := by
          simp [Ends, hproblem]
        have hstores : Stores service true item = (service.put item.name).stores := by
          simp [Stores, hproblem]
        have hput : ∀ w, w ∈ remote.put item.name (service.put item.name) ↔
            w ∈ remote ∨ ∃ i ∈ if Stores service true item then [item] else [], upper i.name = w := by
          intro w
          rw [Remote.mem_put, hstores]
          cases (service.put item.name).stores <;> simp
        simp only [Bool.not_true, Bool.false_eq_true, if_false]
        cases hanswer : service.put item.name with
        | lost done =>
          rw [hanswer] at hends hput
          have hends : Ends service true item = true := hends
          refine ⟨fun w => ?_, by simp [hends]⟩
          rw [written, hends, if_pos rfl, List.append_nil]
          exact hput w
        | status code message =>
          rw [hanswer] at hends hstores hput
          dsimp only
          by_cases hsuccess : isSuccess code = true
          · have hends : Ends service true item = false := by
              rw [hends, Answer.ends, decide_eq_false_iff_not]
              rintro rfl
              exact absurd hsuccess (by decide)
            have hstores : Stores service true item = true := hstores.trans hsuccess
            rw [if_pos hsuccess]
            obtain ⟨hremote, hreport⟩ := ih (report.addPushed item.name)
              (remote.put item.name (.status code message))
            constructor
            · intro w
              rw [hremote, hput, written, hends, hstores]
              simp [or_assoc]
            · simpa [hends, hstores, Report.addPushed, Report.failedNames] using hreport
          · have hstores : Stores service true item = false := by
              rw [hstores, Answer.stores, Bool.eq_false_iff]
              exact hsuccess
            rw [if_neg hsuccess]
            rcases checkError_eq what code message with
              ⟨rfl, hcheck⟩ | ⟨hcode, text, hcheck⟩ <;> rw [hcheck]
            · have hends : Ends service true item = true := hends
              refine ⟨fun w => ?_, by simp [hends]⟩
              rw [written, hends, if_pos rfl, List.append_nil]
              exact hput w
            · have hends : Ends service true item = false := by
                rw [hends, Answer.ends, decide_eq_false_iff_not]
                exact hcode
              obtain ⟨hremote, hreport⟩ := ih (report.addFailed item.name (Error.provider text).text)
                (remote.put item.name (.status code message))
              constructor
              · intro w
                rw [hremote, hput, written, hends, hstores]
                simp
              · simpa [hends, hstores, Report.addFailed, Report.failedNames] using hreport

/-- What the second loop leaves at the target, and what it reports. -/
theorem prune_spec (names : List String) (report : Report) (remote : Remote) :
    (∀ w ∈ (prune what service names report remote).2, w ∈ remote) ∧
    (∀ w ∈ remote, w ∉ names.map upper → w ∈ (prune what service names report remote).2) ∧
    (match (prune what service names report remote).1 with
      | .error _ => names.any (DeletionLost service) = true
      | .ok report' => names.any (DeletionLost service) = false ∧
          report'.pushed = report.pushed ∧
          report'.failedNames = report.failedNames ++ names.filter (fun name =>
            (nameProblem name).isNone && !(service.delete name).deletes) ∧
          ∀ name ∈ names, Deletes service name = true →
            upper name ∉ (prune what service names report remote).2) := by
  induction names generalizing report remote with
  | nil => simp [prune]
  | cons name names ih =>
    unfold prune
    cases hproblem : nameProblem name with
    | some why =>
      have hlost : DeletionLost service name = false := by simp [DeletionLost, hproblem]
      have hdeletes : Deletes service name = false := by simp [Deletes, hproblem]
      obtain ⟨hsubset, hkept, hreport⟩ := ih report remote
      refine ⟨hsubset, fun w hw hnot => hkept w hw fun h => hnot ?_, ?_⟩
      · rw [List.map_cons]
        exact List.mem_cons_of_mem _ h
      · simpa [hproblem, hlost, hdeletes] using hreport
    | none =>
      have hdeletes : Deletes service name = (service.delete name).deletes := by
        simp [Deletes, hproblem]
      have hsubset : ∀ w ∈ remote.delete name (service.delete name), w ∈ remote :=
        fun w hw => (Remote.mem_delete.mp hw).1
      have hkept : ∀ w ∈ remote, w ∉ (name :: names).map upper →
          w ∈ remote.delete name (service.delete name) ∧ w ∉ names.map upper := by
        intro w hw hnot
        rw [List.map_cons, List.mem_cons, not_or] at hnot
        exact ⟨Remote.mem_delete.mpr ⟨hw, fun h => hnot.1 h.2.symm⟩, hnot.2⟩
      simp only [Option.isSome_none, Bool.false_eq_true, if_false]
      cases hanswer : service.delete name with
      | lost done =>
        have hlost : DeletionLost service name = true := by simp [DeletionLost, hproblem, hanswer]
        rw [hanswer] at hsubset hkept
        exact ⟨hsubset, fun w hw hnot => (hkept w hw hnot).1, by simp [hlost]⟩
      | status code message =>
        have hlost : DeletionLost service name = false := by simp [DeletionLost, hproblem, hanswer]
        rw [hanswer] at hsubset hkept hdeletes
        dsimp only
        -- the name joins what failed, unless it is gone
        obtain ⟨report₁, hprune, hpushed₁, hfailed₁⟩ : ∃ report₁,
            (if isGone code then prune what service names (report.addRemoved name)
                (remote.delete name (.status code message))
              else prune what service names
                (report.addFailed name (checkError what code message).text)
                (remote.delete name (.status code message))) =
              prune what service names report₁ (remote.delete name (.status code message)) ∧
            report₁.pushed = report.pushed ∧ report₁.failedNames = report.failedNames ++
              if isGone code then [] else [name] := by
          split
          · exact ⟨_, rfl, rfl, by simp [Report.addRemoved, Report.failedNames]⟩
          · exact ⟨_, rfl, rfl, by simp [Report.addFailed, Report.failedNames]⟩
        rw [hprune]
        obtain ⟨hsubset', hkept', hreport⟩ := ih report₁ (remote.delete name (.status code message))
        refine ⟨fun w hw => hsubset w (hsubset' w hw), fun w hw hnot => ?_, ?_⟩
        · obtain ⟨hw, hnot⟩ := hkept w hw hnot
          exact hkept' w hw hnot
        split at hreport
        · simpa [hlost] using hreport
        · obtain ⟨hnone, hpushed, hfailed, hdeleted⟩ := hreport
          refine ⟨by simpa [hlost] using hnone, hpushed.trans hpushed₁, ?_, fun n hn hd => ?_⟩
          · rw [hfailed, hfailed₁, List.append_assoc]
            cases hgone : isGone code <;> simp [hproblem, hanswer, Answer.deletes, hgone]
          · rcases List.mem_cons.mp hn with rfl | hn
            · exact fun h => (Remote.mem_delete.mp (hsubset' _ h)).2 ⟨hdeletes.symm.trans hd, rfl⟩
            · exact hdeleted n hn hd

end Loops

theorem mem_stale {items : List Item} {previous : List String} {name : String} :
    name ∈ stale items previous ↔
      name ∈ previous ∧ ∀ item ∈ items, upper item.name ≠ upper name := by
  simp [stale]

/-- What a push leaves at the target, and what it reports, once there is a public key. -/
theorem push_spec {what : String} {service : Service} {usable : Bool} {items : List Item}
    {previous : List String} {remote remote' : Remote} {answer : Except Error Report}
    (hkey : service.publicKey = .key usable)
    (h : push what service items previous remote = (answer, remote')) :
    (∀ w ∈ remote', w ∈ remote ∨ ∃ i ∈ written service usable items, upper i.name = w) ∧
    (∀ i ∈ items, upper i.name ∈ remote ∨ i ∈ written service usable items →
      upper i.name ∈ remote') ∧
    (match answer with
      | .error _ => items.any (Ends service usable) = true ∨
          (stale items previous).any (DeletionLost service) = true
      | .ok report => items.any (Ends service usable) = false ∧
          (stale items previous).any (DeletionLost service) = false ∧
          report.pushed = (items.filter (Stores service usable)).map (·.name) ∧
          report.failedNames = (items.filter fun item => !Stores service usable item).map (·.name) ++
            (stale items previous).filter (fun name =>
              (nameProblem name).isNone && !(service.delete name).deletes) ∧
          ∀ name ∈ stale items previous, Deletes service name = true → upper name ∉ remote') := by
  unfold push at h
  rw [hkey] at h
  dsimp only at h
  obtain ⟨hremote, hreport⟩ := upload_spec what service usable items ⟨[], [], []⟩ remote
  split at h <;> rename_i heq <;> rw [heq] at hremote hreport
  · cases h
    refine ⟨fun w hw => (hremote w).mp hw, fun i hi hw => (hremote _).mpr ?_, Or.inl hreport⟩
    exact hw.imp_right fun hw => ⟨i, hw, rfl⟩
  · rename_i report uploaded
    obtain ⟨hends, hpushed, hfailed⟩ := hreport
    obtain ⟨hsubset, hkept, hpruned⟩ := prune_spec what service (stale items previous) report uploaded
    rw [h] at hsubset hkept hpruned
    refine ⟨fun w hw => (hremote w).mp (hsubset w hw), fun i hi hw => ?_, ?_⟩
    · refine hkept _ ((hremote _).mpr (hw.imp_right fun hw => ⟨i, hw, rfl⟩)) fun hstale => ?_
      obtain ⟨n, hn, hname⟩ := List.mem_map.mp hstale
      exact (mem_stale.mp hn).2 i hi hname.symm
    · cases answer with
      | error e => exact Or.inr hpruned
      | ok report' =>
        obtain ⟨hlost, hpushed', hfailed', hdeleted⟩ := hpruned
        refine ⟨hends, hlost, ?_, ?_, hdeleted⟩
        · rw [hpushed', hpushed, List.nil_append]
        · rw [hfailed', hfailed]
          rfl

/-- No two items have the same name in any letter case. -/
def Distinct (items : List Item) : Prop := (items.map fun i => upper i.name).Nodup

theorem firstRepeated_eq_none {seen names : List String} (h : firstRepeated seen names = none) :
    (names.map upper).Nodup ∧ ∀ n ∈ names, upper n ∉ seen := by
  induction names generalizing seen with
  | nil => exact ⟨List.nodup_nil, List.forall_mem_nil _⟩
  | cons name names ih =>
    unfold firstRepeated at h
    split at h
    · cases h
    · rename_i hnew
      obtain ⟨hnodup, hseen⟩ := ih h
      constructor
      · rw [List.map_cons, List.nodup_cons]
        refine ⟨fun hmem => ?_, hnodup⟩
        obtain ⟨n, hn, hname⟩ := List.mem_map.mp hmem
        exact hseen n hn (by rw [hname]; exact List.mem_cons_self)
      · intro n hn
        rcases List.mem_cons.mp hn with rfl | hn
        · exact hnew
        · exact fun h => hseen n hn (List.mem_cons_of_mem _ h)

theorem openItems_names {V : Type} {openValue : SyncItem V → Except String String}
    {items : List (SyncItem V)} {plain : List Item} (h : openItems openValue items = .ok plain) :
    plain.map (·.name) = items.map (·.name) := by
  induction items generalizing plain with
  | nil =>
    cases h
    rfl
  | cons i items ih =>
    unfold openItems at h
    split at h
    · cases h
    split at h
    · cases h
    · rename_i hopen
      cases h
      rw [List.map_cons, List.map_cons, ih hopen]

theorem prepare_ok {V : Type} {repo : String} {environment : Option String} {saved : Bool}
    {openValue : SyncItem V → Except String String} {items : List (SyncItem V)} {plain : List Item}
    (h : prepare repo environment saved openValue items = .ok plain) :
    plain.map (·.name) = items.map (·.name) ∧ Distinct plain := by
  unfold prepare at h
  split at h
  · cases h
  split at h
  · cases h
  rename_i hrepeated
  split at h
  · cases h
  have hnames := openItems_names h
  have hnodup := (firstRepeated_eq_none hrepeated).1
  rw [← hnames, List.map_map] at hnodup
  exact ⟨hnames, hnodup⟩

end Zvault.SecretSync
