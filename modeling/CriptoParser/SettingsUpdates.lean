import CriptoParser.GatewaySettings

set_option autoImplicit false

namespace CriptoParser

/-- The body of a request: a dict, its keys are distinct. -/
abbrev SettingsPayload := { items : List (String × Json) // (items.map Prod.fst).Nodup }

section
variable [SettingText]

def settingAfterFault (x : PyExc) (key : String) (value : Json) (t : Settings) : Settings :=
  if x.served then
    match updateSetting key value t with
    | .ok t' => t'
    | .error _ => t
  else t

/-- The loop of `update_settings`, where the outside may let the `n`-th statement raise. -/
def updateSettingsFrom (faults : ℕ → Option PyExc) :
    ℕ → List (String × Json) → Settings → Except PyExc Unit × Settings
  | _, [], t => (.ok (), t)
  | n, (key, value) :: rest, t =>
    match faults n with
    | some x => (.error x, settingAfterFault x key value t)
    | none =>
      match updateSetting key value t with
      | .ok t => updateSettingsFrom faults (n + 1) rest t
      | .error x => (.error x, t)

def putSettings (poolFault : Option PyExc) (faults : ℕ → Option PyExc) (payload : SettingsPayload)
    (t : Settings) : Except PyExc Unit × Settings :=
  match poolFault with
  | some x => (.error x, t)
  | none => updateSettingsFrom faults 0 payload.val t

/-- The items are in the table, as far as their keys are, and nothing else has changed. -/
structure SettingsWritten (items : List (String × Json)) (t t' : Settings) : Prop where
  values : ∀ kv ∈ items, ∃ text, SettingText.jsonb kv.2 = some text ∧
    t' kv.1 = if (t kv.1).isSome then some text else none
  others : ∀ key, key ∉ items.map Prod.fst → t' key = t key

theorem settingsWritten_nil (t : Settings) : SettingsWritten [] t t := ⟨by simp, by simp⟩

theorem updateSetting_ok {key : String} {value : Json} {t t' : Settings}
    (h : updateSetting key value t = .ok t') : SettingsWritten [(key, value)] t t' := by
  unfold updateSetting at h
  split at h
  · cases h
  · rename_i text htext
    obtain rfl := Except.ok.inj h
    refine ⟨fun kv hkv => ⟨text, ?_⟩, fun other hother => ?_⟩
    · rw [List.mem_singleton.mp hkv]
      refine ⟨htext, ?_⟩
      split
      · rw [Function.update_self]
      · rename_i hnone
        exact Option.not_isSome_iff_eq_none.mp hnone
    · have hne : other ≠ key := by simpa using hother
      split
      · exact Function.update_of_ne hne _ _
      · rfl

theorem SettingsWritten.append {done : List (String × Json)} {key : String} {value : Json}
    {t t₁ t₂ : Settings} (h : SettingsWritten done t t₁)
    (hone : SettingsWritten [(key, value)] t₁ t₂)
    (hnew : key ∉ done.map Prod.fst) : SettingsWritten (done ++ [(key, value)]) t t₂ := by
  refine ⟨fun kv hkv => ?_, fun other hother => ?_⟩
  · rcases List.mem_append.mp hkv with hkv | hkv
    · obtain ⟨text, htext, hvalue⟩ := h.values kv hkv
      have hne : kv.1 ∉ [(key, value)].map Prod.fst := by
        intro hmem
        rw [List.map_singleton, List.mem_singleton] at hmem
        exact hnew (List.mem_map.mpr ⟨kv, hkv, hmem⟩)
      exact ⟨text, htext, (hone.others kv.1 hne).trans hvalue⟩
    · obtain ⟨text, htext, hvalue⟩ := hone.values kv hkv
      rw [List.mem_singleton.mp hkv] at hvalue ⊢
      rw [h.others key hnew] at hvalue
      exact ⟨text, by rw [List.mem_singleton.mp hkv] at htext; exact htext, hvalue⟩
  · rw [List.map_append, List.mem_append, not_or] at hother
    exact (hone.others other hother.2).trans (h.others other hother.1)

def Left (payload : List (String × Json)) (t : Settings) (result : Except PyExc Unit)
    (t' : Settings) : Prop :=
  match result with
  | .ok () => SettingsWritten payload t t'
  | .error x => ∃ done rest, payload = done ++ rest ∧
      (SettingsWritten done t t' ∨
        x.served = true ∧ ∃ kv rest', rest = kv :: rest' ∧ SettingsWritten (done ++ [kv]) t t')

theorem updateSettingsFrom_left (faults : ℕ → Option PyExc) (n : ℕ)
    (done items : List (String × Json)) (hnodup : ((done ++ items).map Prod.fst).Nodup)
    {t t₁ : Settings} (h : SettingsWritten done t t₁) :
    Left (done ++ items) t (updateSettingsFrom faults n items t₁).1
      (updateSettingsFrom faults n items t₁).2 := by
  induction items generalizing n done t₁ with
  | nil =>
    rw [List.append_nil]
    exact h
  | cons item rest ih =>
    obtain ⟨key, value⟩ := item
    have hnew : key ∉ done.map Prod.fst := by
      rw [List.map_append, List.nodup_append] at hnodup
      exact fun hmem => hnodup.2.2 key hmem key (by simp) rfl
    rw [updateSettingsFrom]
    cases hfault : faults n with
    | some x =>
      refine ⟨done, (key, value) :: rest, rfl, ?_⟩
      dsimp only
      unfold settingAfterFault
      by_cases hserved : x.served = true
      · rw [if_pos hserved]
        cases hstep : updateSetting key value t₁ with
        | ok t₂ =>
          exact .inr ⟨hserved, (key, value), rest, rfl, h.append (updateSetting_ok hstep) hnew⟩
        | error y => exact .inl h
      · rw [if_neg hserved]
        exact .inl h
    | none =>
      cases hstep : updateSetting key value t₁ with
      | ok t₂ =>
        have hrest := ih (n + 1) (done ++ [(key, value)]) (by rwa [List.append_assoc])
          (h.append (updateSetting_ok hstep) hnew)
        rw [List.append_assoc] at hrest
        exact hrest
      | error x => exact ⟨done, (key, value) :: rest, rfl, .inl h⟩

/-- A request that succeeds has written its items; one that fails has written those before the
key it failed on, and that key too if the server had carried the statement out. -/
theorem putSettings_left (poolFault : Option PyExc) (faults : ℕ → Option PyExc)
    (payload : SettingsPayload) (t : Settings) :
    Left payload.val t (putSettings poolFault faults payload t).1
      (putSettings poolFault faults payload t).2 := by
  unfold putSettings
  cases poolFault with
  | some x => exact ⟨[], payload.val, rfl, .inl (settingsWritten_nil t)⟩
  | none =>
    exact updateSettingsFrom_left faults 0 [] payload.val payload.property (settingsWritten_nil t)

structure Atomic (payload : List (String × Json)) (t : Settings) (result : Except PyExc Unit)
    (t' : Settings) : Prop where
  failed : ∀ x, result = .error x → t' = t
  succeeded : result = .ok () → SettingsWritten payload t t'

end

/-- A database that stores whole numbers and refuses a NaN. -/
@[reducible] def wholeNumbers : SettingText where
  jsonb v := match v with
    | .num q => some (toString q.num)
    | _ => none
  float _ := none

/-- The second value is refused, the first is stored. -/
theorem putSettings_not_atomic :
    ¬@Atomic wholeNumbers [("min_spread_pct", .num 1), ("max_position_pct", .nan)]
      seededSettings.table
      (@putSettings wholeNumbers none (fun _ => none)
        ⟨[("min_spread_pct", .num 1), ("max_position_pct", .nan)], by decide⟩
        seededSettings.table).1
      (@putSettings wholeNumbers none (fun _ => none)
        ⟨[("min_spread_pct", .num 1), ("max_position_pct", .nan)], by decide⟩
        seededSettings.table).2 := by
  intro h
  have hsame := congrFun (@Atomic.failed wholeNumbers _ _ _ _ h (.callFailed false) rfl)
    "min_spread_pct"
  revert hsame
  decide +kernel

end CriptoParser
