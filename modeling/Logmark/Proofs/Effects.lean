import Logmark.Proofs.Asking
import Logmark.Proofs.Worlds

/-!
What a run of the program may change. Every command asks first and writes at the end, so that a run
that fails leaves the content of every file, and one that succeeds changes at most the file that its
command is about. This holds whichever requests the machine refuses.
-/
namespace Logmark

variable {α γ : Type}

/-- `x` changes no file unless what it gives counts as a success, and then at most the one that a
path of `path?` leads to. -/
def ChangesAtMost (path? : Option Text) (success : α → Bool) (x : StateM Machine α) : Prop :=
  ∀ s names, (x.run s).2.world.content? names ≠ s.world.content? names →
    success (x.run s).1 = true ∧ ∃ path ∈ path?, (x.run s).2.world.resolve? path = some names

/-- The contents of all files of a machine. -/
def Machine.content? (s : Machine) : List Text → Option ByteArray := s.world.content?

namespace ChangesAtMost

variable {path? : Option Text} {path : Text} {success : α → Bool} {success' : γ → Bool}

theorem of_keeps {x : StateM Machine α} (h : Keeps Machine.content? x) :
    ChangesAtMost path? success x :=
  fun s names hchanged => absurd (congrFun (h s) names) hchanged

/-- What is done before files are changed. -/
theorem bind {x : StateM Machine α} {f : α → StateM Machine γ} (hx : Keeps Machine.content? x)
    (hf : ∀ a, ChangesAtMost path? success' (f a)) : ChangesAtMost path? success' (x >>= f) := by
  intro s names hchanged
  refine hf (x.run s).1 (x.run s).2 names fun hsame => hchanged ?_
  exact hsame.trans (congrFun (hx s) names)

/-- What is answered after files were changed. -/
theorem answer {x : StateM Machine α} {f : α → StateM Machine γ}
    (hx : ChangesAtMost path? success x)
    (hf : ∀ a, ∃ b, f a = pure b ∧ (success a = true → success' b = true)) :
    ChangesAtMost path? success' (x >>= f) := by
  intro s names hchanged
  obtain ⟨b, hb, hsuccess⟩ := hf (x.run s).1
  have hrun : (x >>= f).run s = (b, (x.run s).2) := by
    calc (x >>= f).run s = (f (x.run s).1).run (x.run s).2 := rfl
      _ = (b, (x.run s).2) := by rw [hb]; rfl
  rw [hrun] at hchanged ⊢
  obtain ⟨hdone, hpath⟩ := hx s names hchanged
  exact ⟨hsuccess hdone, hpath⟩

/-- A tree changes at most where a file is written, if it is. -/
theorem of_write (path : Text) (bytes : ByteArray) (w : World) (names : List Text)
    (h : (w.write path bytes).2.content? names ≠ w.content? names) :
    (w.write path bytes).1 = true ∧ (w.write path bytes).2.resolve? path = some names := by
  obtain ⟨place, hplace, hwritten⟩ | hfailed := w.write_cases path bytes
  · rw [hwritten] at h ⊢
    have hputs := hplace.puts bytes
    obtain rfl : names = place := by
      by_contra hne
      exact h (hputs.content?_eq hne)
    exact ⟨rfl, hplace.resolve?_of_puts hputs⟩
  · rw [hfailed] at h
    exact absurd rfl h

theorem request_write (path : Text) (bytes : ByteArray) :
    ChangesAtMost (some path) id
      (Machine.request false (modifyGet fun w : World => w.write path bytes)) := by
  intro s names hchanged
  rcases s with ⟨w, _ | ⟨refused, refusals⟩⟩
  · obtain ⟨hdone, hpath⟩ := of_write path bytes w names hchanged
    exact ⟨hdone, path, rfl, hpath⟩
  · cases refused with
    | true => exact absurd rfl hchanged
    | false =>
      obtain ⟨hdone, hpath⟩ := of_write path bytes w names hchanged
      exact ⟨hdone, path, rfl, hpath⟩

end ChangesAtMost

theorem Keeps.content? {x : StateM Machine α} (h : Keeps Machine.world x) :
    Keeps Machine.content? x :=
  fun s => congrArg World.content? (h s)

theorem Machine.keeps_makeDirectory (path : Text) :
    Keeps Machine.content? (Files.makeDirectory (m := StateM Machine) path) :=
  keeps_request (x := Files.makeDirectory path) fun w =>
    w.content?_makeDirectories (w.origin path) (Path.segments path)

open ChangesAtMost

theorem Settings.changes_save (settings : Settings) (path : Text) :
    ChangesAtMost (some path) Except.isOk (settings.save (m := StateM Machine) path) := by
  have hwrite : ChangesAtMost (some path) Except.isOk (do
      if ← Files.write path (Text.encode settings.toJson) then return .ok ()
      else return .error .unwritable : StateM Machine (Except SaveError Unit)) := by
    refine answer (request_write path _) fun written => ?_
    cases written with
    | false => exact ⟨_, rfl, nofun⟩
    | true => exact ⟨_, rfl, fun _ => rfl⟩
  by_cases hnone : (Path.parent? path).getD [] = []
  · rw [Settings.save, if_pos hnone]
    exact hwrite
  · rw [Settings.save, if_neg hnone]
    refine ChangesAtMost.bind (Machine.keeps_makeDirectory _) fun made => ?_
    cases made with
    | false => exact of_keeps (Keeps.pure _)
    | true => exact hwrite

namespace Run

variable {path? : Option Text} {x : Run (StateM Machine) α} {f : α → Run (StateM Machine) γ}

theorem changes_of_keeps (h : Keeps Machine.world x.run) :
    ChangesAtMost path? Except.isOk x.run := of_keeps h.content?

theorem changes_bind (hx : Keeps Machine.world x.run)
    (hf : ∀ a, ChangesAtMost path? Except.isOk (f a).run) :
    ChangesAtMost path? Except.isOk (x >>= f).run := by
  rw [ExceptT.run_bind]
  refine ChangesAtMost.bind hx.content? fun result => ?_
  cases result with
  | ok a => exact hf a
  | error failure => exact of_keeps (Keeps.pure _)

theorem changes_answer {g : α → γ} (hx : ChangesAtMost path? Except.isOk x.run) :
    ChangesAtMost path? Except.isOk (x >>= fun a => (pure (g a) : Run (StateM Machine) γ)).run := by
  rw [ExceptT.run_bind]
  refine ChangesAtMost.answer hx fun result => ?_
  cases result with
  | ok a => exact ⟨_, rfl, fun _ => rfl⟩
  | error failure => exact ⟨_, rfl, nofun⟩

theorem changes_update (path text : Text) :
    ChangesAtMost (some path) Except.isOk (update (m := StateM Machine) path text).run := by
  rw [update, run_ask_bind]
  refine answer (request_write path _) fun written => ?_
  cases written with
  | false => exact ⟨_, rfl, nofun⟩
  | true => exact ⟨_, rfl, fun _ => rfl⟩

theorem changes_saveSettings (settings : Settings) (path : Text) :
    ChangesAtMost (some path) Except.isOk
      (saveSettings (m := StateM Machine) settings path).run := by
  rw [saveSettings, run_ask_bind]
  refine answer (Settings.changes_save settings path) fun saved => ?_
  cases saved with
  | ok _ => exact ⟨_, rfl, fun _ => rfl⟩
  | error error => exact ⟨_, rfl, nofun⟩

theorem settingsPath_bind (path : Text) (f : Text → Run (StateM Machine) γ) :
    settingsPath (some path) >>= f = f path := rfl

theorem changes_finishInsertion (file : Text) (mode : Mode) (d : Document) (selected : Text)
    (entry : Entry) :
    ChangesAtMost (if mode = .apply then some file else none) Except.isOk
      (finishInsertion (m := StateM Machine) file mode d selected entry).run := by
  cases mode with
  | json => exact changes_of_keeps (Keeps.run_pure _)
  | preview => exact changes_of_keeps (Keeps.run_pure _)
  | apply => exact changes_answer (changes_update file _)

theorem changes_finishRemoval (file : Text) (mode : Mode) (d : Document) (tag : Tag) :
    ChangesAtMost (if mode = .apply then some file else none) Except.isOk
      (finishRemoval (m := StateM Machine) file mode d tag).run := by
  have hshown : ∀ lines : List Text, ChangesAtMost (if mode = .apply then some file else none)
      Except.isOk (pure lines : Run (StateM Machine) (List Text)).run :=
    fun _ => changes_of_keeps (Keeps.run_pure _)
  rw [finishRemoval]
  by_cases hjson : mode = .json
  · rw [if_pos hjson]
    exact hshown _
  rw [if_neg hjson]
  by_cases hsame : ¬ (Removal.ofText tag d.text).changed
  · rw [if_pos hsame]
    exact hshown _
  rw [if_neg hsame]
  by_cases hpreview : mode = .preview
  · rw [if_pos hpreview]
    exact hshown _
  · have happly : mode = .apply := by cases mode <;> trivial
    rw [if_neg hpreview, if_pos happly]
    exact changes_answer (changes_update file _)

end Run

/-- The file that a command may change: a file of source text, unless the change is only shown, or
the settings file. -/
def Command.mayChange? (settingsPath? : Option Text) : Command → Option Text
  | insert file options => if options.mode = .apply then some file else none
  | remove file _ mode => if mode = .apply then some file else none
  | setTag _ => settingsPath?
  | resetTag => settingsPath?
  | _ => none

open Run in
theorem Command.changes_execute (settingsPath? : Option Text) (command : Command) :
    ChangesAtMost (command.mayChange? settingsPath?) Except.isOk
      (command.execute (m := StateM Machine) settingsPath?).run := by
  cases command with
  | insert file options =>
    rw [execute]
    cases options.target? with
    | none => exact changes_of_keeps (Keeps.run_throw _)
    | some target =>
      exact changes_bind (keeps_document file) fun d =>
        changes_bind (keeps_planInsertion _ file d target options) fun (selected, entry) =>
          changes_finishInsertion file options.mode d selected entry
  | remove file tag? mode =>
    exact changes_bind (keeps_document file) fun d => changes_bind (keeps_tag tag? _) fun tag =>
      changes_finishRemoval file mode d tag
  | locate path position => exact changes_of_keeps (keeps_locate path position)
  | showTag => exact changes_of_keeps (keeps_showTag settingsPath?)
  | setTag value =>
    cases settingsPath? with
    | none => exact changes_of_keeps (Keeps.run_throw _)
    | some path =>
      rw [execute, Run.setTag, settingsPath_bind]
      refine changes_bind (keeps_loadSettings path) fun settings => ?_
      split
      · exact changes_of_keeps (Keeps.run_throw _)
      · exact changes_answer (changes_saveSettings _ path)
  | resetTag =>
    cases settingsPath? with
    | none => exact changes_of_keeps (Keeps.run_throw _)
    | some path => exact changes_answer (changes_saveSettings _ path)

/-- The file that an invocation may change. -/
def Invocation.mayChange? (i : Invocation) (usual? : Option Text) : Option Text :=
  i.command.mayChange? (i.settings? <|> usual?)

theorem Invocation.changes_run (i : Invocation) (usual? : Option Text) :
    ChangesAtMost (i.mayChange? usual?) (·.exitCode == 0) (do
      return Response.ofOutcome (← i.run usual?) : StateM Machine Response) := by
  have hrun : ChangesAtMost (i.mayChange? usual?) (·.failure?.isNone)
      (i.run (m := StateM Machine) usual?) := by
    refine answer (i.command.changes_execute _) fun result => ?_
    cases result with
    | ok lines => exact ⟨_, rfl, fun _ => rfl⟩
    | error failure => exact ⟨_, rfl, nofun⟩
  refine answer hrun fun outcome => ⟨_, rfl, fun hnone => ?_⟩
  rw [Option.isNone_iff_eq_none] at hnone
  simp [Response.ofOutcome, Outcome.exitCode, hnone]

/-- A run changes at most the file that its arguments allow it to change, and none at all if its
exit code is not zero, whichever of its requests are refused. -/
theorem Program.respond_confined (s : Machine) (usual? : Option Text) (args : List Text) :
    let run := (Program.respond (m := StateM Machine) usual? args).run s
    (run.1.exitCode ≠ 0 → run.2.world.content? = s.world.content?) ∧
      ∀ names, run.2.world.content? names ≠ s.world.content? names →
        ∃ i path, Invocation.ofArguments args = .ok i ∧ i.mayChange? usual? = some path ∧
          run.2.world.resolve? path = some names := by
  intro run
  -- Both parts say what follows from a change, so one look at a changed file is enough.
  have hchanges : ∀ names, run.2.world.content? names ≠ s.world.content? names →
      run.1.exitCode = 0 ∧ ∃ i path, Invocation.ofArguments args = .ok i ∧
        i.mayChange? usual? = some path ∧ run.2.world.resolve? path = some names := by
    intro names hchanged
    cases hargs : Invocation.ofArguments args with
    | error interruption =>
      have hrun : run = (Response.ofInterruption interruption, s) := by
        simp only [run, Program.respond, hargs]
        rfl
      rw [hrun] at hchanged
      exact absurd rfl hchanged
    | ok i =>
      have hrun : run = (do return Response.ofOutcome (← i.run usual?) :
          StateM Machine Response).run s := by
        simp only [run, Program.respond, hargs]
      rw [hrun] at hchanged ⊢
      obtain ⟨hcode, path, hpath, hleads⟩ := i.changes_run usual? s names hchanged
      exact ⟨by simpa using hcode, i, path, rfl, hpath, hleads⟩
  refine ⟨fun hfailed => funext fun names => ?_, fun names hchanged => (hchanges names hchanged).2⟩
  by_contra hchanged
  exact hfailed (hchanges names hchanged).1

/-- A new tag is written to the settings file that is named, unless the machine refuses to. -/
theorem Program.respond_confined_newTag :
    let args := ["tag".toList, "x".toList, "--config".toList, "/s.json".toList]
    let run (refusals : List Bool) :=
      (Program.respond (m := StateM Machine) none args).run ⟨⟨.empty, []⟩, refusals⟩
    let granted := run []
    let refused := run [false, false, true]
    (∃ i path, Invocation.ofArguments args = .ok i ∧ i.mayChange? none = some path ∧
      granted.2.world.resolve? path = some ["s.json".toList]) ∧
      refused.2.world.content? = World.content? ⟨.empty, []⟩ :=
  ⟨(Program.respond_confined _ none _).2 _ (by decide +kernel),
    (Program.respond_confined _ none _).1 (by decide +kernel)⟩

end Logmark
