import ContractSync.Proofs.Contract.Replacing

/-!
# Parameters of operations and paths

Each parameter adds on its own to what a list of parameters comes to (`taken_marked`): it stays a parameter, or
it describes the body. **An operation with other parameters is lifted to the same operation but for them and its
body** (`operation_parameters`, `operation_body`), and a path item with another operation to the same item but
for it (`pathItem_operation`).
-/

namespace ContractSync.Contract.Lift

open ContractSync.Document
open Entries (Pointwise)

variable {consumes produces : Value} {bodies : List Scalar}

/-! ### What parameters come to -/

/-- What two runs of parameters come to together. -/
def Params.append (a b : Params) : Params := ⟨a.kept ++ b.kept, b.body.or a.body, a.form ++ b.form⟩

theorem Params.append_empty (a : Params) : a.append {} = a := by
  rw [Params.append, List.append_nil, Option.none_or, List.append_nil]

/-- What a run of parameters comes to. -/
def taken (consumes : Value) (bodies : List Scalar) (vs : List Value) : Except Fault Params :=
  vs.foldlM (Params.add consumes bodies) {}

theorem Params.add_append (a b : Params) (v : Value) :
    Params.add consumes bodies (a.append b) v = (Params.add consumes bodies b v).map a.append := by
  unfold Params.add Params.append
  split
  · split
    · simp only
      split
      · rfl
      · simp only [Except.map, List.append_assoc]
    · simp only
      split
      · cases bodyParam _ consumes <;> rfl
      · split
        · simp only [Except.map, List.append_assoc]
        · simp only [Except.map, List.append_assoc]
  · rfl

theorem foldlM_add (a : Params) (vs : List Value) :
    vs.foldlM (Params.add consumes bodies) a = (taken consumes bodies vs).map a.append := by
  have hfold : ∀ b, vs.foldlM (Params.add consumes bodies) (a.append b) =
      (vs.foldlM (Params.add consumes bodies) b).map a.append := by
    induction vs with
    | nil => exact fun b => rfl
    | cons v rest ih =>
      intro b
      rw [List.foldlM_cons, List.foldlM_cons, Params.add_append]
      cases Params.add consumes bodies b v with
      | error => rfl
      | ok c => exact ih c
  rw [taken, ← hfold, Params.append_empty]

theorem taken_append {vs ws : List Value} {found : Params} : taken consumes bodies (vs ++ ws) = .ok found ↔
    ∃ a b, taken consumes bodies vs = .ok a ∧ taken consumes bodies ws = .ok b ∧ a.append b = found := by
  rw [taken, List.foldlM_append, bind_eq_ok]
  constructor
  · rintro ⟨a, ha, h⟩
    rw [foldlM_add, map_eq_ok] at h
    obtain ⟨b, hb, h⟩ := h
    exact ⟨a, b, ha, hb, h⟩
  · rintro ⟨a, b, ha, hb, h⟩
    refine ⟨a, ha, ?_⟩
    rw [foldlM_add, map_eq_ok]
    exact ⟨b, hb, h⟩

theorem taken_cons {v : Value} {vs : List Value} {found : Params} : taken consumes bodies (v :: vs) = .ok found ↔
    ∃ x b, Params.add consumes bodies {} v = .ok x ∧ taken consumes bodies vs = .ok b ∧ x.append b = found := by
  rw [taken, List.foldlM_cons, bind_eq_ok]
  constructor
  · rintro ⟨x, hx, h⟩
    rw [foldlM_add, map_eq_ok] at h
    obtain ⟨b, hb, h⟩ := h
    exact ⟨x, b, hx, hb, h⟩
  · rintro ⟨x, b, hx, hb, h⟩
    refine ⟨x, hx, ?_⟩
    rw [foldlM_add, map_eq_ok]
    exact ⟨b, hb, h⟩

/-- **A parameter adds on its own to what the parameters come to.** -/
theorem taken_marked {before after : List Value} {v : Value} {found : Params} :
    taken consumes bodies (before ++ v :: after) = .ok found ↔ ∃ a x b,
      taken consumes bodies before = .ok a ∧ Params.add consumes bodies {} v = .ok x ∧
        taken consumes bodies after = .ok b ∧ a.append (x.append b) = found := by
  rw [taken_append]
  constructor
  · rintro ⟨a, rest, ha, hrest, rfl⟩
    obtain ⟨x, b, hx, hb, rfl⟩ := taken_cons.mp hrest
    exact ⟨a, x, b, ha, hx, hb, rfl⟩
  · rintro ⟨a, x, b, ha, hx, hb, rfl⟩
    exact ⟨a, _, ha, taken_cons.mpr ⟨x, b, hx, hb, rfl⟩, rfl⟩

/-- The body that the parameters describe. -/
def Params.described (found : Params) (consumes : Value) : Except Fault (Option Value) :=
  match found.body with
  | some body => .ok (some body)
  | none => if found.form.isEmpty then .ok none else (formParams found.form consumes).map some

theorem params_eq (vs : List Value) : params vs consumes bodies = (do
    let found ← taken consumes bodies vs
    let body ← found.described consumes
    return (found.kept, body)) := by
  unfold params taken Params.described
  congr 1
  funext found
  cases found.body with
  | some body => rfl
  | none =>
    simp only
    split
    · rfl
    · cases formParams found.form consumes <;> rfl

/-! ### Single parameters -/

section Single

variable {entries : Entries}

/-- The parameter itself says where it stands. -/
theorem get_reference_of_not_has (h : Entries.has entries "$ref" = false) (ref : String) :
    Entries.get entries "$ref" ≠ .text ref := by
  rw [Entries.get_of_not_has h]
  nofun

theorem add_kept (hinline : Entries.has entries "$ref" = false) (hbody : Entries.get entries "in" ≠ .text "body")
    (hform : Entries.get entries "in" ≠ .text "formData") :
    Params.add consumes bodies {} (.mapping entries) = .ok { kept := [param (.mapping entries)] } := by
  unfold Params.add
  simp only [Entries.get_of_not_has hinline]
  rw [if_neg hbody, if_neg hform]
  rfl

theorem add_body (hinline : Entries.has entries "$ref" = false) (hbody : Entries.get entries "in" = .text "body") :
    Params.add consumes bodies {} (.mapping entries) =
      (bodyParam entries consumes).map fun body => { body := some body } := by
  unfold Params.add
  simp only [Entries.get_of_not_has hinline]
  rw [if_pos hbody]
  cases bodyParam entries consumes <;> rfl

theorem add_form (hinline : Entries.has entries "$ref" = false)
    (hform : Entries.get entries "in" = .text "formData") :
    Params.add consumes bodies {} (.mapping entries) = .ok { form := [entries] } := by
  unfold Params.add
  simp only [Entries.get_of_not_has hinline]
  rw [if_neg (by rw [hform]; decide), if_pos hform]
  rfl

/-- The name of the component that a parameter stands for, as a key; null if there is none. -/
def componentKey (ref : String) : Scalar :=
  ((Reference.componentName ref none "parameters").map Scalar.text).getD .null

theorem add_reference (ref : String) : Params.add consumes bodies {} (.object [("$ref", .text ref)]) =
    .ok (if bodies.any (componentKey ref).sameKey then
        { body := some (.object [("$ref", .text ("#/components/requestBodies/" ++ (componentKey ref).display))]) }
      else { kept := [.object [("$ref", .text ref)]] }) := by
  unfold Params.add
  have hget : Entries.get [(Scalar.text "$ref", Value.text ref)] "$ref" = .text ref := by
    rw [Entries.get, Entries.get?_cons, if_pos rfl]
    rfl
  simp only [Value.object, List.map_cons, List.map_nil, hget, componentKey]
  split <;> rfl

/-- The parameter describes the body, or a part of it. -/
def isBodyPart (bodies : List Scalar) (v : Value) : Bool :=
  match v.get "$ref" with
  | .scalar (.text ref) => bodies.any (componentKey ref).sameKey
  | _ => v.get "in" == .text "body" || v.get "in" == .text "formData"

/-- A parameter that describes no body stays one. -/
theorem add_of_not_isBodyPart {v : Value} (h : isBodyPart bodies v = false) :
    ∃ kept, Params.add consumes bodies {} v = .ok { kept } := by
  cases v with
  | mapping entries =>
    have hget : ∀ key, Value.get (.mapping entries) key = Entries.get entries key := fun _ => rfl
    unfold isBodyPart at h
    rw [hget, hget] at h
    unfold Params.add
    simp only
    generalize Entries.get entries "$ref" = ref at h ⊢
    have hinline : (Entries.get entries "in" == .text "body" || Entries.get entries "in" == .text "formData") = false →
        ∃ kept, (if Entries.get entries "in" = .text "body" then
            (do return { body := some (← bodyParam entries consumes) } : Except Fault Params)
          else if Entries.get entries "in" = .text "formData" then .ok { form := [] ++ [entries] }
          else .ok { kept := [] ++ [param (.mapping entries)] }) = .ok { kept } := by
      intro hplace
      rw [Bool.or_eq_false_iff, beq_eq_false_iff_ne, beq_eq_false_iff_ne] at hplace
      rw [if_neg hplace.1, if_neg hplace.2]
      exact ⟨_, rfl⟩
    cases ref with
    | scalar s =>
      cases s with
      | text ref =>
        have hnot : ¬ bodies.any (((Reference.componentName ref none "parameters").map Scalar.text).getD .null).sameKey =
            true := by rw [Bool.not_eq_true]; exact h
        exact ⟨_, if_neg hnot⟩
      | _ => exact hinline h
    | _ => exact hinline h
  | scalar | list | set => exact ⟨[], rfl⟩

theorem taken_of_not_isBodyPart {vs : List Value} (h : ∀ v ∈ vs, isBodyPart bodies v = false) :
    ∃ kept, taken consumes bodies vs = .ok { kept } := by
  induction vs with
  | nil => exact ⟨[], rfl⟩
  | cons v rest ih =>
    rw [List.forall_mem_cons] at h
    obtain ⟨first, hfirst⟩ := @add_of_not_isBodyPart consumes bodies v h.1
    obtain ⟨more, hmore⟩ := ih h.2
    exact ⟨first ++ more, taken_cons.mpr ⟨_, _, hfirst, hmore, rfl⟩⟩

/-- What stays a parameter is one that was there. -/
theorem exists_of_mem_kept {vs : List Value} {found : Params} (h : taken consumes bodies vs = .ok found) :
    ∀ w ∈ found.kept, ∃ v ∈ vs, w = param v := by
  have hadd : ∀ v x, Params.add consumes bodies {} v = .ok x → ∀ w ∈ x.kept, w = param v := by
    intro v x hx
    unfold Params.add at hx
    split at hx
    · rename_i entries
      split at hx
      · rename_i ref href
        have hhas : Entries.has entries "$ref" = true := by
          cases hhas : Entries.has entries "$ref" with
          | true => rfl
          | false => exact (get_reference_of_not_has hhas ref href).elim
        simp only at hx
        split at hx
        · cases hx
          exact List.forall_mem_nil _
        · cases hx
          refine List.forall_mem_singleton.mpr ?_
          rw [param, hhas]
          rfl
      · simp only at hx
        split at hx
        · obtain ⟨body, -, hx⟩ := bind_eq_ok.mp hx
          cases pure_eq_ok.mp hx
          exact List.forall_mem_nil _
        · split at hx
          · cases hx
            exact List.forall_mem_nil _
          · cases hx
            exact List.forall_mem_singleton.mpr rfl
    · cases hx
      exact List.forall_mem_nil _
  induction vs generalizing found with
  | nil =>
    cases h
    exact List.forall_mem_nil _
  | cons v rest ih =>
    obtain ⟨x, b, hx, hb, rfl⟩ := taken_cons.mp h
    intro w hw
    rcases List.mem_append.mp hw with hw | hw
    · exact ⟨v, List.mem_cons_self, hadd v x hx w hw⟩
    · obtain ⟨v', hv', hw⟩ := ih hb w hw
      exact ⟨v', List.mem_cons_of_mem _ hv', hw⟩

end Single

/-! ### Operations -/

section Operations

variable {entries lifted : Entries} {key : String} {v : Value} {body shared : Option Value}

theorem withBody_replace (h : key ≠ "requestBody") :
    withBody body (Entries.replace entries key v) = Entries.replace (withBody body entries) key v := by
  cases body with
  | none => rfl
  | some body => exact Entries.put_replace_of_ne h

theorem withShared_replace (h : key ≠ "requestBody") :
    withShared shared (Entries.replace entries key v) = Entries.replace (withShared shared entries) key v := by
  cases shared with
  | none => rfl
  | some shared => exact Entries.putNew_replace_of_ne h

theorem withResponses_replace (h : key ≠ "responses") :
    withResponses produces (Entries.replace entries key v) =
      (withResponses produces entries).map (Entries.replace · key v) := by
  have hget : Entries.get (Entries.replace entries key v) "responses" = Entries.get entries "responses" := by
    exact Entries.get_replace_of_ne h
  unfold withResponses
  rw [hget]
  split
  · rename_i found _
    cases responses found produces with
    | error => rfl
    | ok found => exact congrArg Except.ok (Entries.put_replace_of_ne h)
  · rfl

theorem get?_withResponses (h : withResponses produces entries = .ok lifted) (hkey : key ≠ "responses") :
    Entries.get? lifted key = Entries.get? entries key := by
  unfold withResponses at h
  split at h
  · obtain ⟨found, -, h⟩ := bind_eq_ok.mp h
    rw [pure_eq_ok.mp h, Entries.get?_put_of_ne (Ne.symm hkey)]
  · rw [pure_eq_ok.mp h]

theorem get?_withBody (h : key ≠ "requestBody") : Entries.get? (withBody body entries) key = Entries.get? entries key := by
  cases body with
  | none => rfl
  | some body => exact Entries.get?_put_of_ne (Ne.symm h)

theorem get?_withShared (h : key ≠ "requestBody") :
    Entries.get? (withShared shared entries) key = Entries.get? entries key := by
  cases shared with
  | none => rfl
  | some shared => exact Entries.get?_putNew_of_ne (Ne.symm h)

/-- A body of its own stands before that of the path. -/
theorem withShared_withBody (body : Value) :
    withShared shared (withBody (some body) entries) = withBody (some body) entries := by
  cases shared with
  | none => rfl
  | some shared =>
    refine if_pos ?_
    rw [Entries.has, withBody, Entries.get?_put_self]
    rfl

/-- What an operation takes. -/
def consumesFor (consumes : Value) (operation : Entries) : Value :=
  orElse (Entries.get operation "consumes") consumes

/-- The operation with the parameters that stay and with its body. -/
def divided (operation : Entries) (kept : List Value) (body shared : Option Value) : Entries :=
  withShared shared (withBody body (Entries.put
    (Entries.erase (Entries.erase operation "consumes") "produces") "parameters" (.list kept)))

theorem operation_eq_ok {vs : List Value} (hvs : Entries.get? entries "parameters" = some (.list vs)) :
    operation entries consumes produces bodies shared = .ok lifted ↔ ∃ found body,
      taken (consumesFor consumes entries) bodies vs = .ok found ∧
        found.described (consumesFor consumes entries) = .ok body ∧
        withResponses (orElse (Entries.get entries "produces") produces)
          (divided entries found.kept body shared) = .ok lifted := by
  have hget : Entries.get (Entries.erase (Entries.erase entries "consumes") "produces") "parameters" = .list vs := by
    rw [Entries.get, Entries.get?_erase_of_ne (by decide), Entries.get?_erase_of_ne (by decide), hvs]
    rfl
  rw [operation_eq, withParams, hget]
  simp only [params_eq, bind_eq_ok, pure, Except.pure, Except.ok.injEq]
  constructor
  · rintro ⟨_, ⟨_, ⟨found, hfound, body, hbody, rfl⟩, rfl⟩, h⟩
    exact ⟨found, body, hfound, hbody, h⟩
  · rintro ⟨found, body, hfound, hbody, h⟩
    exact ⟨_, ⟨_, ⟨found, hfound, body, hbody, rfl⟩, rfl⟩, h⟩

variable {vs vs' : List Value} {found found' : Params}

theorem get?_divided_parameters {operation : Entries} {kept : List Value} :
    Entries.get? (divided operation kept body shared) "parameters" = some (.list kept) := by
  rw [divided, get?_withShared (by decide), get?_withBody (by decide), Entries.get?_put_self]

/-- An operation that has parameters, with others: it still takes and gives the same. -/
theorem operation_replace_eq_ok (hvs : Entries.get? entries "parameters" = some (.list vs)) :
    operation (Entries.replace entries "parameters" (.list vs')) consumes produces bodies shared = .ok lifted ↔
      ∃ found body, taken (consumesFor consumes entries) bodies vs' = .ok found ∧
        found.described (consumesFor consumes entries) = .ok body ∧
        withResponses (orElse (Entries.get entries "produces") produces)
          (divided entries found.kept body shared) = .ok lifted := by
  have hhas : Entries.has entries "parameters" = true := Entries.has_of_get? hvs
  have hget : ∀ key, "parameters" ≠ key →
      Entries.get (Entries.replace entries "parameters" (.list vs')) key = Entries.get entries key := by
    intro key hkey
    exact Entries.get_replace_of_ne hkey
  have hdivided : ∀ kept body, divided (Entries.replace entries "parameters" (.list vs')) kept body shared =
      divided entries kept body shared := by
    intro kept body
    have hbare : Entries.has (Entries.erase (Entries.erase entries "consumes") "produces") "parameters" = true := by
      rw [Entries.has, Entries.get?_erase_of_ne (by decide), Entries.get?_erase_of_ne (by decide), hvs]
      rfl
    rw [divided, divided, Entries.erase_replace, Entries.erase_replace,
      Entries.put_of_has (Entries.has_replace.trans hbare), Entries.put_of_has hbare, Entries.replace_replace]
  rw [operation_eq_ok (Entries.get?_replace_self hhas), consumesFor, hget _ (by decide), hget _ (by decide)]
  simp only [hdivided]
  rfl

/-- **Other parameters that stay, and the same body.** -/
theorem operation_parameters (h : operation entries consumes produces bodies shared = .ok lifted)
    (hvs : Entries.get? entries "parameters" = some (.list vs))
    (hfound : taken (consumesFor consumes entries) bodies vs = .ok found)
    (hfound' : taken (consumesFor consumes entries) bodies vs' = .ok found') (hbody : found'.body = found.body)
    (hform : found'.form = found.form) :
    Entries.get? lifted "parameters" = some (.list found.kept) ∧
      operation (Entries.replace entries "parameters" (.list vs')) consumes produces bodies shared =
        .ok (Entries.replace lifted "parameters" (.list found'.kept)) := by
  obtain ⟨_, body, hsame, hdescribed, h⟩ := (operation_eq_ok hvs).mp h
  cases hfound.symm.trans hsame
  refine ⟨(get?_withResponses h (by decide)).trans get?_divided_parameters, ?_⟩
  refine (operation_replace_eq_ok hvs).mpr ⟨found', body, hfound', ?_, ?_⟩
  · rw [Params.described, hbody, hform]
    exact hdescribed
  · have hdivided : divided entries found'.kept body shared =
        Entries.replace (divided entries found.kept body shared) "parameters" (.list found'.kept) := by
      have hbare : Entries.has (Entries.erase (Entries.erase entries "consumes") "produces") "parameters" = true := by
        rw [Entries.has, Entries.get?_erase_of_ne (by decide), Entries.get?_erase_of_ne (by decide), hvs]
        rfl
      rw [divided, divided, Entries.put_of_has hbare, Entries.put_of_has hbare, ← withShared_replace (by decide),
        ← withBody_replace (by decide), Entries.replace_replace]
    rw [hdivided, withResponses_replace (by decide), h]
    rfl

/-- **The same parameters that stay, and another body.** -/
theorem operation_body {b b' : Value} (h : operation entries consumes produces bodies shared = .ok lifted)
    (hvs : Entries.get? entries "parameters" = some (.list vs))
    (hfound : taken (consumesFor consumes entries) bodies vs = .ok found)
    (hfound' : taken (consumesFor consumes entries) bodies vs' = .ok found') (hkept : found'.kept = found.kept)
    (hbody : found.described (consumesFor consumes entries) = .ok (some b))
    (hbody' : found'.described (consumesFor consumes entries) = .ok (some b')) :
    Entries.get? lifted "requestBody" = some b ∧
      operation (Entries.replace entries "parameters" (.list vs')) consumes produces bodies shared =
        .ok (Entries.replace lifted "requestBody" b') := by
  obtain ⟨_, body, hsame, hdescribed, h⟩ := (operation_eq_ok hvs).mp h
  cases hfound.symm.trans hsame
  cases hbody.symm.trans hdescribed
  refine ⟨?_, ?_⟩
  · rw [get?_withResponses h (by decide), divided, withShared_withBody, withBody, Entries.get?_put_self]
  · refine (operation_replace_eq_ok hvs).mpr ⟨found', _, hfound', hbody', ?_⟩
    have hdivided : divided entries found'.kept (some b') shared =
        Entries.replace (divided entries found.kept (some b) shared) "requestBody" b' := by
      rw [divided, divided, withShared_withBody, withShared_withBody, hkept, withBody, withBody]
      exact Entries.put_eq_replace_put
    rw [hdivided, withResponses_replace (by decide), h]
    rfl

/-- **A body that the path describes instead of the operation.** -/
theorem operation_hoisted {b : Value} (h : operation entries consumes produces bodies none = .ok lifted)
    (hvs : Entries.get? entries "parameters" = some (.list vs))
    (hnone : Entries.has entries "requestBody" = false)
    (hfound : taken (consumesFor consumes entries) bodies vs = .ok found)
    (hfound' : taken (consumesFor consumes entries) bodies vs' = .ok found') (hkept : found'.kept = found.kept)
    (hbody : found.described (consumesFor consumes entries) = .ok (some b))
    (hbody' : found'.described (consumesFor consumes entries) = .ok none) :
    operation (Entries.replace entries "parameters" (.list vs')) consumes produces bodies (some b) = .ok lifted := by
  obtain ⟨_, body, hsame, hdescribed, h⟩ := (operation_eq_ok hvs).mp h
  cases hfound.symm.trans hsame
  cases hbody.symm.trans hdescribed
  refine (operation_replace_eq_ok hvs).mpr ⟨found', _, hfound', hbody', ?_⟩
  have hdivided : divided entries found'.kept none (some b) = divided entries found.kept (some b) none := by
    have hbare : Entries.has (Entries.put (Entries.erase (Entries.erase entries "consumes") "produces") "parameters"
        (.list found.kept)) "requestBody" = false :=
      Entries.not_has_put (by decide) (Entries.not_has_erase (Entries.not_has_erase hnone))
    rw [divided, divided, hkept]
    exact Entries.putNew_of_not_has hbare
  rw [hdivided]
  exact h

end Operations

/-! ### Path items -/

section Items

variable {item lifted : Entries} {name : String} {shared : Option Value}

theorem method_of_not_isMapping (h : (Entries.get item name).isMapping = false) :
    method consumes produces bodies shared item name = .ok item := by
  unfold method
  split
  · rename_i entries hget
    rw [hget] at h
    cases h
  · rfl

theorem method_of_get? {operation : Entries} (h : Entries.get? item name = some (.mapping operation)) :
    method consumes produces bodies shared item name =
      (Lift.operation operation consumes produces bodies shared).map fun operation =>
        Entries.replace item name (.mapping operation) := by
  have hhas : Entries.has item name = true := Entries.has_of_get? h
  unfold method
  rw [Entries.get, h]
  simp only [Option.getD_some]
  cases Lift.operation operation consumes produces bodies shared with
  | error => rfl
  | ok operation => exact congrArg Except.ok (Entries.put_of_has hhas)

theorem method_replace {other : String} {v : Value} (h : other ≠ name) :
    method consumes produces bodies shared (Entries.replace item other v) name =
      (method consumes produces bodies shared item name).map (Entries.replace · other v) := by
  unfold method
  rw [Entries.get, Entries.get?_replace_of_ne h, Entries.get]
  split
  · rename_i operation _
    cases Lift.operation operation consumes produces bodies shared with
    | error => rfl
    | ok operation => exact congrArg Except.ok (Entries.put_replace_of_ne h)
  · rfl

theorem get?_method {other : String} (h : method consumes produces bodies shared item name = .ok lifted)
    (hother : other ≠ name) : Entries.get? lifted other = Entries.get? item other := by
  unfold method at h
  split at h
  · obtain ⟨operation, -, h⟩ := bind_eq_ok.mp h
    rw [pure_eq_ok.mp h, Entries.get?_put_of_ne (Ne.symm hother)]
  · rw [pure_eq_ok.mp h]

section Methods

variable {names : List String} {other : String} {v : Value}

theorem foldlM_method_replace (h : other ∉ names) :
    names.foldlM (method consumes produces bodies shared) (Entries.replace item other v) =
      (names.foldlM (method consumes produces bodies shared) item).map (Entries.replace · other v) := by
  induction names generalizing item with
  | nil => rfl
  | cons name names ih =>
    rw [List.mem_cons, not_or] at h
    rw [List.foldlM_cons, List.foldlM_cons, method_replace h.1]
    cases method consumes produces bodies shared item name with
    | error => rfl
    | ok next => exact ih h.2

theorem get?_foldlM_method (h : names.foldlM (method consumes produces bodies shared) item = .ok lifted)
    (hother : other ∉ names) : Entries.get? lifted other = Entries.get? item other := by
  induction names generalizing item with
  | nil =>
    cases h
    rfl
  | cons name names ih =>
    rw [List.mem_cons, not_or] at hother
    rw [List.foldlM_cons] at h
    obtain ⟨next, hnext, h⟩ := bind_eq_ok.mp h
    rw [ih h hother.2, get?_method hnext hother.1]

theorem foldlM_method_of_not_isMapping (h : ∀ name ∈ names, (Entries.get item name).isMapping = false) :
    names.foldlM (method consumes produces bodies shared) item = .ok item := by
  induction names with
  | nil => rfl
  | cons name names ih =>
    rw [List.forall_mem_cons] at h
    rw [List.foldlM_cons, method_of_not_isMapping h.1]
    exact ih h.2

end Methods

theorem httpMethods_split (h : name ∈ httpMethods) :
    ∃ before after, httpMethods = before ++ name :: after ∧ name ∉ before ∧ name ∉ after := by
  obtain ⟨before, after, hsplit⟩ := List.append_of_mem h
  have hnodup : httpMethods.Nodup := by decide
  rw [hsplit, List.perm_middle.nodup_iff, List.nodup_cons, List.mem_append, not_or] at hnodup
  exact ⟨before, after, hsplit, hnodup.1.1, hnodup.1.2⟩

theorem ne_parameters_of_mem_httpMethods (h : name ∈ httpMethods) : name ≠ "parameters" := by
  rintro rfl
  exact absurd h (by decide)

theorem splitParams_replace {v : Value} (h : name ≠ "parameters") :
    splitParams consumes bodies (Entries.replace item name v) =
      (splitParams consumes bodies item).map fun found => (Entries.replace found.1 name v, found.2) := by
  unfold splitParams
  rw [Entries.get, Entries.get?_replace_of_ne h, Entries.get]
  split
  · rename_i vs _
    cases params vs consumes bodies with
    | error => rfl
    | ok found => exact congrArg (fun item => Except.ok (item, found.2)) (Entries.put_replace_of_ne h)
  · rfl

theorem splitParams_get? {found : Entries × Option Value} (h : splitParams consumes bodies item = .ok found)
    (hname : name ≠ "parameters") : Entries.get? found.1 name = Entries.get? item name := by
  unfold splitParams at h
  split at h
  · obtain ⟨divided, -, h⟩ := bind_eq_ok.mp h
    rw [pure_eq_ok.mp h, Entries.get?_put_of_ne (Ne.symm hname)]
  · rw [pure_eq_ok.mp h]

/-- **A path item with another operation** is lifted to the same item with that operation lifted. -/
theorem pathItem_operation {operation : Entries} (h : pathItem consumes produces bodies item = .ok lifted)
    (hname : name ∈ httpMethods) (hoperation : Entries.get? item name = some (.mapping operation)) :
    ∃ shared found, Lift.operation operation consumes produces bodies shared = .ok found ∧
      Entries.get? lifted name = some (.mapping found) ∧
      Entries.replace lifted name (.mapping found) = lifted ∧
      ∀ operation' found', Lift.operation operation' consumes produces bodies shared = .ok found' →
        pathItem consumes produces bodies (Entries.replace item name (.mapping operation')) =
          .ok (Entries.replace lifted name (.mapping found')) := by
  have hparameters := ne_parameters_of_mem_httpMethods hname
  obtain ⟨before, after, hsplit, hbefore, hafter⟩ := httpMethods_split hname
  rw [pathItem_eq] at h
  obtain ⟨⟨start, shared⟩, hstart, h⟩ := bind_eq_ok.mp h
  simp only at h
  rw [hsplit, List.foldlM_append] at h
  obtain ⟨middle, hmiddle, h⟩ := bind_eq_ok.mp h
  rw [List.foldlM_cons] at h
  obtain ⟨changed, hchanged, h⟩ := bind_eq_ok.mp h
  have hget : Entries.get? middle name = some (.mapping operation) := by
    rw [get?_foldlM_method hmiddle hbefore, splitParams_get? hstart hparameters, hoperation]
  have hhas : Entries.has middle name = true := Entries.has_of_get? hget
  rw [method_of_get? hget, map_eq_ok] at hchanged
  obtain ⟨found, hfound, rfl⟩ := hchanged
  have hgetFound : Entries.get? lifted name = some (.mapping found) := by
    rw [get?_foldlM_method h hafter, Entries.get?_replace_self hhas]
  rw [foldlM_method_replace hafter, map_eq_ok] at h
  obtain ⟨rest, hrest, rfl⟩ := h
  refine ⟨shared, found, hfound, hgetFound, Entries.replace_replace, fun operation' found' hfound' => ?_⟩
  rw [pathItem_eq, splitParams_replace hparameters, hstart]
  show httpMethods.foldlM (method consumes produces bodies shared) (Entries.replace start name _) = _
  rw [hsplit, List.foldlM_append, foldlM_method_replace hbefore, hmiddle]
  show (name :: after).foldlM (method consumes produces bodies shared) (Entries.replace middle name _) = _
  rw [List.foldlM_cons, method_of_get? (Entries.get?_replace_self hhas), hfound']
  show after.foldlM (method consumes produces bodies shared) (Entries.replace (Entries.replace middle name _) name _) = _
  rw [foldlM_method_replace hafter, foldlM_method_replace hafter, hrest]
  simp only [Except.map, Entries.replace_replace]

/-- The item has these parameters, or none at all. -/
def HasParams (item : Entries) (vs : List Value) : Prop :=
  Entries.get? item "parameters" = some (.list vs) ∨ Entries.has item "parameters" = false ∧ vs = []

theorem splitParams_of_hasParams {vs : List Value} {found : Params} {body : Option Value} (h : HasParams item vs)
    (hfound : taken consumes bodies vs = .ok found) (hbody : found.described consumes = .ok body) :
    ∃ start, splitParams consumes bodies item = .ok (start, body) ∧ HasParams start found.kept ∧
      (∀ v, Entries.put start "parameters" v = Entries.put item "parameters" v) := by
  rcases h with h | ⟨h, rfl⟩
  · refine ⟨Entries.put item "parameters" (.list found.kept), ?_, .inl Entries.get?_put_self, fun v => ?_⟩
    · rw [splitParams, Entries.get, h]
      simp only [Option.getD_some, params_eq, hfound, hbody, bind, Except.bind]
      rfl
    · rw [Entries.put_of_has (Entries.has_of_get? Entries.get?_put_self)]
      exact Entries.put_eq_replace_put.symm
  · cases hfound
    cases hbody
    refine ⟨item, ?_, .inr ⟨h, rfl⟩, fun v => rfl⟩
    rw [splitParams, Entries.get_of_not_has h]
    rfl

/-- **A path item with one operation, with another one and other parameters**, is lifted to the same item with
that operation lifted and the parameters that stay. -/
theorem pathItem_parameters {operation : Entries} {vs : List Value} {found : Params} {body : Option Value}
    (h : pathItem consumes produces bodies item = .ok lifted) (hname : name ∈ httpMethods)
    (hoperation : Entries.get? item name = some (.mapping operation))
    (halone : ∀ other ∈ httpMethods, other ≠ name → (Entries.get item other).isMapping = false)
    (hvs : HasParams item vs) (hfound : taken consumes bodies vs = .ok found)
    (hbody : found.described consumes = .ok body) :
    HasParams lifted found.kept ∧ ∃ result, Lift.operation operation consumes produces bodies body = .ok result ∧
      Entries.get? lifted name = some (.mapping result) ∧
      (∀ other, other ≠ name → other ≠ "parameters" → Entries.get? lifted other = Entries.get? item other) ∧
      ∀ operation' result' vs' found' body', taken consumes bodies vs' = .ok found' →
        found'.described consumes = .ok body' →
        Lift.operation operation' consumes produces bodies body' = .ok result' →
        pathItem consumes produces bodies
            (Entries.put (Entries.replace item name (.mapping operation')) "parameters" (.list vs')) =
          .ok (Entries.put (Entries.replace lifted name (.mapping result')) "parameters" (.list found'.kept)) := by
  have hparameters := ne_parameters_of_mem_httpMethods hname
  obtain ⟨before, after, hsplit, hbefore, hafter⟩ := httpMethods_split hname
  have honly : ∀ {shared : Option Value} {start : Entries} {operation : Entries},
      Entries.get? start name = some (.mapping operation) →
      (∀ other ∈ httpMethods, other ≠ name → (Entries.get start other).isMapping = false) →
      httpMethods.foldlM (method consumes produces bodies shared) start =
        (Lift.operation operation consumes produces bodies shared).map fun operation =>
          Entries.replace start name (.mapping operation) := by
    intro shared start operation hget hothers
    rw [hsplit] at hothers
    have hbefores : ∀ other ∈ before, (Entries.get start other).isMapping = false := fun other hother =>
      hothers other (List.mem_append_left _ hother) fun heq => hbefore (heq ▸ hother)
    rw [hsplit, List.foldlM_append, foldlM_method_of_not_isMapping hbefores]
    show (name :: after).foldlM (method consumes produces bodies shared) start = _
    rw [List.foldlM_cons, method_of_get? hget]
    cases Lift.operation operation consumes produces bodies shared with
    | error => rfl
    | ok result =>
      refine foldlM_method_of_not_isMapping fun other hother => ?_
      have hne : other ≠ name := fun heq => hafter (heq ▸ hother)
      rw [Entries.get, Entries.get?_replace_of_ne (Ne.symm hne)]
      exact hothers other (List.mem_append_right _ (List.mem_cons_of_mem _ hother)) hne
  obtain ⟨start, hstart, hkept, hput⟩ := splitParams_of_hasParams hvs hfound hbody
  have hstartGet : ∀ other, other ≠ "parameters" → Entries.get? start other = Entries.get? item other := fun other hother =>
    splitParams_get? hstart hother
  have hstartAlone : ∀ other ∈ httpMethods, other ≠ name → (Entries.get start other).isMapping = false := by
    intro other hother hne
    rw [Entries.get, hstartGet other (ne_parameters_of_mem_httpMethods hother)]
    exact halone other hother hne
  have hstartOperation := (hstartGet name hparameters).trans hoperation
  have hhas : Entries.has start name = true := Entries.has_of_get? hstartOperation
  rw [pathItem_eq, hstart] at h
  have h : httpMethods.foldlM (method consumes produces bodies body) start = .ok lifted := h
  rw [honly hstartOperation hstartAlone, map_eq_ok] at h
  obtain ⟨result, hresult, rfl⟩ := h
  refine ⟨?_, result, hresult, Entries.get?_replace_self hhas, fun other hne hother => ?_, ?_⟩
  · unfold HasParams at hkept ⊢
    rwa [Entries.get?_replace_of_ne hparameters, Entries.has_replace]
  · rw [Entries.get?_replace_of_ne (Ne.symm hne), hstartGet other hother]
  · intro operation' result' vs' found' body' hfound' hbody' hresult'
    have hchanged : Entries.put (Entries.put (Entries.replace item name (.mapping operation')) "parameters" (.list vs'))
        "parameters" (.list found'.kept) =
          Entries.replace (Entries.put start "parameters" (.list found'.kept)) name (.mapping operation') := by
      rw [Entries.put_of_has (Entries.has_of_get? Entries.get?_put_self), ← Entries.put_eq_replace_put,
        Entries.put_replace_of_ne hparameters, hput]
    have hhasStart : Entries.has (Entries.put start "parameters" (.list found'.kept)) name = true := by
      rw [Entries.has, Entries.get?_put_of_ne (Ne.symm hparameters), ← Entries.has, hhas]
    rw [pathItem_eq, splitParams, Entries.get, Entries.get?_put_self]
    simp only [Option.getD_some, params_eq, hfound', hbody', bind, Except.bind, pure, Except.pure]
    rw [hchanged, honly (Entries.get?_replace_self hhasStart) fun other hother hne => ?_, hresult']
    · simp only [Except.map, Entries.replace_replace]
      rw [Entries.put_replace_of_ne hparameters]
    · rw [Entries.get, Entries.get?_replace_of_ne (Ne.symm hne),
        Entries.get?_put_of_ne (Ne.symm (ne_parameters_of_mem_httpMethods hother))]
      exact hstartAlone other hother hne

end Items

end ContractSync.Contract.Lift
