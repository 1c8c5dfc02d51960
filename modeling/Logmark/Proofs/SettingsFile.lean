import Logmark.Proofs.JsonRoundTrip
import Logmark.Proofs.Worlds
import Logmark.Settings.Store

/-!
The settings file as a variable that holds a tag. Tags come from the user, from the standard
settings or from what a file holds, and each time only texts that spell a tag become one. What is
saved is read back, whatever characters the tag has, until the file is written again.
-/
namespace Logmark

open Text

namespace Tag

variable {tag : Tag} {s : Text}

theorem trimmed_name (tag : Tag) : Trimmed tag.name where
  head c hc := tag.not_blank c (List.mem_of_mem_head? hc)
  last c hc := tag.not_blank c (List.mem_of_getLast? hc)

/-- A text spells the tag that is left when it is trimmed. -/
theorem ofText_eq_ok_iff : ofText s = .ok tag ↔ trim s = tag.name := by
  rw [ofText]
  constructor
  · intro h
    split at h
    · contradiction
    split at h
    · contradiction
    split at h
    · rw [← Except.ok.inj h]
    · contradiction
  · intro h
    have hblank : ¬ (trim s).any isBlank = true := by
      rw [h]
      simpa using tag.not_blank
    have hlength : (trim s).length ≤ maxLength := h ▸ tag.length_le
    have hne : trim s ≠ [] := h ▸ tag.ne_nil
    rw [dif_neg hne, dif_neg hblank, dif_pos hlength]
    congr

theorem ofText_name (tag : Tag) : ofText tag.name = .ok tag :=
  ofText_eq_ok_iff.2 tag.trimmed_name.trim_eq

/-- A tag is read from a string that spells its name. -/
theorem reads_name (tag : Tag) {v : Text} (h : Json.IsText tag.name v) :
    Json.Reads readJson v tag := by
  intro w rest hw hrest
  rw [readJson, Json.reads_text h w rest hw hrest]
  simp only [bind, Except.bind, ofText_name]
  rfl

end Tag

namespace Settings

/-- Saved settings are read back, whatever characters the tag has. -/
theorem ofJson_toJson (settings : Settings) : ofJson settings.toJson = .ok settings := by
  have hfills : Json.Fills
      [.of "tag".toList Tag.readJson id fun (_ : Option Tag) tag => some tag] none
      ([("tag".toList, Json.printText settings.tag.name)].map Json.printedMember)
      (some settings.tag) :=
    .of rfl rfl (settings.tag.reads_name (Json.isText_printText _)) (.nil _)
  have hread := Json.readAll_printObject
    (fun record => some (Settings.mk (record.getD Tag.standard))) hfills rfl .nil
  rw [List.append_nil] at hread
  exact hread

end Settings

namespace World

variable {w : World} {path : Text}

/-- Loading settings leaves the files as they are; a missing file stands for the standard ones. -/
theorem run_loadSettings (path : Text) (w : World) :
    (Settings.load (m := StateM World) path).run w =
      if (w.find? path).isSome then (Files.load (m := StateM World) Settings.ofJson path).run w
      else (.ok .standard, w) := by
  have hrun : (Settings.load (m := StateM World) path).run w =
      (if (w.find? path).isSome then Files.load Settings.ofJson path
        else return .ok .standard : StateM World (Except LoadError Settings)).run w := rfl
  rw [hrun]
  split <;> rfl

theorem loadSettings_state (path : Text) (w : World) :
    ((Settings.load (m := StateM World) path).run w).2 = w := by
  rw [run_loadSettings, run_load]
  split <;> rfl

/-- Settings are loaded from a file that holds their JSON text. -/
theorem loadSettings_of_readText? {settings : Settings}
    (h : w.readText? path = some settings.toJson) :
    ((Settings.load (m := StateM World) path).run w).1 = .ok settings := by
  have hthere : (w.find? path).isSome = true := by
    rw [readText?] at h
    obtain ⟨bytes, hbytes, -⟩ := Option.bind_eq_some_iff.1 h
    obtain ⟨tree, htree, -⟩ := Option.bind_eq_some_iff.1 hbytes
    rw [htree]
    rfl
  rw [run_loadSettings, if_pos hthere, run_load, h]
  simp only [Settings.ofJson_toJson]
  rfl

/-- A save that succeeds leaves the JSON text of the settings in the file. -/
theorem readText?_of_save {settings : Settings} {after : World}
    (h : (settings.save (m := StateM World) path).run w = (.ok (), after)) :
    after.readText? path = some settings.toJson := by
  let writing : StateM World (Except SaveError Unit) := do
    if ← Files.write path (encode settings.toJson) then return .ok ()
    else return .error .unwritable
  -- Whatever becomes of the directory first, the file is written into what that leaves.
  obtain ⟨made, between, hsave⟩ : ∃ made between, (settings.save (m := StateM World) path).run w =
      (if made = true then writing
        else return .error (.noDirectory ((Path.parent? path).getD []))).run between := by
    by_cases hnone : (Path.parent? path).getD [] = []
    · exact ⟨true, w, by rw [Settings.save, if_pos hnone]; rfl⟩
    · exact ⟨_, _, by rw [Settings.save, if_neg hnone]; rfl⟩
  rw [h] at hsave
  cases made with
  | false => cases hsave
  | true =>
    have hwriting : writing.run between =
        ((if (between.write path (encode settings.toJson)).1 = true then return .ok ()
          else return .error .unwritable) : StateM World (Except SaveError Unit)).run
            (between.write path (encode settings.toJson)).2 := rfl
    rw [if_pos rfl, hwriting] at hsave
    obtain ⟨names, hplace, hwritten⟩ | hfailed := write_cases between path (encode settings.toJson)
    · rw [hwritten] at hsave
      cases hsave
      exact hplace.readText?_of_puts (hplace.puts _)
    · rw [hfailed] at hsave
      cases hsave

end World

/-- Settings in memory, and the files among which theirs is. -/
structure SettingsSession where
  settings : Settings
  world : World

/-- What is done with settings and their file. -/
inductive SettingsStep where
  | write (bytes : ByteArray)
  | load
  | setTag (value : Text)
  | save
  | choose (asked? : Option Text)

/-- Whether a step may write the file. -/
def SettingsStep.writes : SettingsStep → Bool
  | write _ => true
  | save => true
  | _ => false

/-- Why a step fails. -/
inductive SettingsFault where
  | notWritten
  | unloadable (error : LoadError)
  | invalid (error : TagError)
  | notSaved (error : SaveError)
  | noTag (error : TagChoiceError)
  deriving DecidableEq

namespace SettingsSession

/-- Takes a step with the settings file at `path`. Gives the tag in use afterwards, or the one that
is chosen. -/
def step (path : Text) (s : SettingsSession) :
    SettingsStep → Except SettingsFault Tag × SettingsSession
  | .write bytes =>
    let written := (Files.write (m := StateM World) path bytes).run s.world
    (if written.1 then .ok s.settings.tag else .error .notWritten, { s with world := written.2 })
  | .load =>
    let loaded := (Settings.load (m := StateM World) path).run s.world
    match loaded.1 with
    | .ok settings => (.ok settings.tag, ⟨settings, loaded.2⟩)
    | .error error => (.error (.unloadable error), { s with world := loaded.2 })
  | .setTag value =>
    match s.settings.setTag value with
    | .ok settings => (.ok settings.tag, { s with settings })
    | .error error => (.error (.invalid error), s)
  | .save =>
    let saved := (s.settings.save (m := StateM World) path).run s.world
    ((saved.1.map fun _ => s.settings.tag).mapError .notSaved, { s with world := saved.2 })
  | .choose asked? =>
    let chosen := (Tag.choose (m := StateM World) asked? (some path)).run s.world
    (chosen.1.mapError .noTag, { s with world := chosen.2 })

def run (path : Text) (s : SettingsSession) (steps : List SettingsStep) : SettingsSession :=
  steps.foldl (fun s step => (s.step path step).2) s

variable {path : Text} {s : SettingsSession} {step : SettingsStep}

/-- A step that fails leaves the settings as they are. -/
theorem settings_step_of_error {fault : SettingsFault} (h : (s.step path step).1 = .error fault) :
    (s.step path step).2.settings = s.settings := by
  cases step with
  | write bytes => rfl
  | load =>
    simp only [SettingsSession.step] at h ⊢
    split at h
    · contradiction
    · simp only
  | setTag value =>
    simp only [SettingsSession.step] at h ⊢
    split at h
    · contradiction
    · simp only
  | save => rfl
  | choose asked? => rfl

theorem run_choose (asked? : Option Text) (path : Text) (w : World) :
    (Tag.choose (m := StateM World) asked? (some path)).run w =
      (match asked? with
        | some asked => (Tag.ofText asked).mapError .invalid
        | none => (((Settings.load (m := StateM World) path).run w).1.map (·.tag)).mapError
            (.unloadable path), w) := by
  cases asked? with
  | some asked => rfl
  | none => exact Prod.ext rfl (World.loadSettings_state path w)

/-- The files change only where a step writes. -/
theorem world_step (h : step.writes = false) : (s.step path step).2.world = s.world := by
  cases step with
  | write bytes => contradiction
  | load =>
    have hstate := World.loadSettings_state path s.world
    simp only [SettingsSession.step]
    split <;> exact hstate
  | setTag value =>
    rw [SettingsSession.step]
    split <;> rfl
  | save => contradiction
  | choose asked? =>
    rw [SettingsSession.step, run_choose]

theorem world_run {steps : List SettingsStep} (h : ∀ step ∈ steps, step.writes = false) :
    (s.run path steps).world = s.world := by
  induction steps generalizing s with
  | nil => rfl
  | cons step steps ih =>
    obtain ⟨hstep, hsteps⟩ := List.forall_mem_cons.1 h
    calc (s.run path (step :: steps)).world
        = ((s.step path step).2.run path steps).world := rfl
      _ = (s.step path step).2.world := ih hsteps
      _ = s.world := world_step hstep

/-- A file with the JSON text of settings gives their tag, whatever settings are in memory. -/
theorem step_of_readText? {settings : Settings}
    (h : s.world.readText? path = some settings.toJson) :
    (s.step path .load).1 = .ok settings.tag ∧ (s.step path .load).2.settings = settings ∧
      (s.step path (.choose none)).1 = .ok settings.tag := by
  have hload := World.loadSettings_of_readText? h
  refine ⟨?_, ?_, ?_⟩
  · simp only [SettingsSession.step, hload]
  · simp only [SettingsSession.step, hload]
  · rw [SettingsSession.step, run_choose]
    simp only [hload]
    rfl

theorem readText?_of_save (h : (s.step path .save).1 = .ok s.settings.tag) :
    (s.step path .save).2.world.readText? path = some s.settings.toJson := by
  rw [SettingsSession.step] at h ⊢
  dsimp only at h ⊢
  apply World.readText?_of_save (w := s.world)
  cases hsaved : ((s.settings.save (m := StateM World) path).run s.world).1 with
  | ok _ => exact Prod.ext hsaved rfl
  | error error =>
    rw [hsaved] at h
    contradiction

/-- The settings file is a variable that holds a tag. After any steps the tag in use is one; a step
that fails does not change it, and only writing and saving change the file. A tag that is asked for
is what its text spells. What is saved is what the file gives until it is written again. -/
theorem tag_run (path : Text) (start : SettingsSession) (steps : List SettingsStep) :
    let s := start.run path steps
    let name := s.settings.tag.name
    (Trimmed name ∧ name ≠ [] ∧ (∀ c ∈ name, isBlank c = false) ∧ name.length ≤ 10) ∧
      (∀ step fault, (s.step path step).1 = .error fault →
        (s.step path step).2.settings = s.settings) ∧
      (∀ step, step.writes = false → (s.step path step).2.world = s.world) ∧
      (∀ value, (s.step path (.choose (some value))).1 =
        (Tag.ofText value).mapError fun error => .noTag (.invalid error)) ∧
      ∀ later, (s.step path .save).1 = .ok s.settings.tag → (∀ step ∈ later, step.writes = false) →
        let after := (s.step path .save).2.run path later
        (after.step path .load).1 = .ok s.settings.tag ∧
          (after.step path .load).2.settings = s.settings ∧
          (after.step path (.choose none)).1 = .ok s.settings.tag := by
  intro s name
  have hname : Trimmed name ∧ name ≠ [] ∧ (∀ c ∈ name, isBlank c = false) ∧ name.length ≤ 10 :=
    ⟨s.settings.tag.trimmed_name, s.settings.tag.ne_nil, s.settings.tag.not_blank,
      s.settings.tag.length_le⟩
  refine ⟨hname, fun step fault => settings_step_of_error, fun step => world_step, ?_, ?_⟩
  · intro value
    simp only [SettingsSession.step, run_choose]
    cases Tag.ofText value <;> rfl
  · intro later hsaved hlater
    apply step_of_readText?
    rw [world_run hlater]
    exact readText?_of_save hsaved

/-- A tag of a quote, a backslash and a control character is read back. -/
theorem tag_run_escaped :
    let path : Text := "/conf/settings.json".toList
    let name : Text := ['"', '\\', '\x01']
    let set : SettingsSession := .run path ⟨.standard, ⟨.empty, []⟩⟩ [.load, .setTag name]
    set.settings.tag.name = name ∧
      let later := (set.step path .save).2.run path [.setTag ['x'], .choose none]
      (later.step path .load).1 = .ok set.settings.tag := by
  have hsaved := (tag_run "/conf/settings.json".toList ⟨.standard, ⟨.empty, []⟩⟩
    [.load, .setTag ['"', '\\', '\x01']]).2.2.2.2
  exact ⟨by decide +kernel, (hsaved _ (by decide +kernel) (by decide +kernel)).1⟩

end SettingsSession
end Logmark
