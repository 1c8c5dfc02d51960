import Logmark.Proofs.Asking
import Logmark.Proofs.CommandLines
import Logmark.Proofs.Listing
import Logmark.Proofs.PrintedReports
import Logmark.Proofs.Worlds

/-!
What is shown of a change is the change that is made. A command line is run in its three modes on
the same tree: all ask the same questions and fail alike, the entry or removal that is printed as
JSON is the one that is applied, and the preview lists what goes.
-/
namespace Logmark

variable {w : World} {path file : Text}

namespace Run

/-- What a run gives on a tree, and the tree afterwards. -/
def onWorld {α : Type} (x : Run (StateM World) α) (w : World) : Except Failure α × World :=
  x.run.run w

theorem onWorld_bind {α γ : Type} (x : Run (StateM World) α) (f : α → Run (StateM World) γ)
    (w : World) :
    onWorld (x >>= f) w =
      match onWorld x w with
      | (.ok a, after) => onWorld (f a) after
      | (.error failure, after) => (.error failure, after) := by
  rw [onWorld, ExceptT.run_bind, onWorld]
  have hbind : ∀ k : Except Failure α → StateM World (Except Failure γ),
      (x.run >>= k).run w = (k (x.run.run w).1).run (x.run.run w).2 := fun _ => rfl
  rw [hbind]
  obtain ⟨_ | _, after⟩ := x.run.run w <;> rfl

/-- After a command that only asks, a run goes on with what it gives, on the same tree. -/
theorem onWorld_bind_of_keeps {α γ : Type} {x : Run (StateM World) α}
    {f : α → Run (StateM World) γ} (hx : Keeps (fun w => w) x.run) (w : World) :
    onWorld (x >>= f) w =
      match (onWorld x w).1 with
      | .ok a => onWorld (f a) w
      | .error failure => (.error failure, w) := by
  have hstate : (onWorld x w).2 = w := hx w
  rw [onWorld_bind]
  cases hrun : onWorld x w with
  | mk result after =>
    rw [hrun] at hstate
    obtain rfl : after = w := hstate
    cases result <;> rfl

/-- A document that is read has the text of the file. -/
theorem text_of_document {d : Document} (h : (onWorld (document path) w).1 = .ok d) :
    ∃ text, w.readText? path = some text ∧ d = Document.ofText text := by
  have hthere : (onWorld (ask (Files.isFile path)) w).1 =
      .ok ((w.find? path).any (!·.isDirectory)) := rfl
  have hread : (onWorld (ask (Files.readText? path)) w).1 = .ok (w.readText? path) := rfl
  rw [document, onWorld_bind_of_keeps (Keeps.run_ask (KeepsAsking.isFile path)), hthere] at h
  cases hfile : (w.find? path).any (!·.isDirectory) with
  | false =>
    rw [hfile] at h
    cases h
  | true =>
    rw [hfile] at h
    dsimp only at h
    rw [if_pos rfl, onWorld_bind_of_keeps (Keeps.run_ask (Files.keeps_readText? path)), hread] at h
    cases htext : w.readText? path with
    | none =>
      rw [htext] at h
      cases h
    | some text =>
      rw [htext] at h
      cases h
      exact ⟨text, rfl, rfl⟩

/-- The text of a file that is there can be changed. -/
theorem onWorld_update {text : Text} (h : w.readText? path = some text) (new : Text)
    (lines : List Text) :
    ∃ after, onWorld (do update path new; return lines) w = (.ok lines, after) ∧
      after.readText? path = some new := by
  obtain ⟨bytes, hbytes, -⟩ := Option.bind_eq_some_iff.1 h
  obtain ⟨tree, htree, hcontent⟩ := Option.bind_eq_some_iff.1 hbytes
  cases tree with
  | directory entries => cases hcontent
  | file content =>
    obtain ⟨names, -, hplace⟩ := World.exists_place_of_find? htree
    have hwrite : w.write path (Text.encode new) =
        (true, w.setAt names (.file (Text.encode new))) := by
      rw [World.write, World.place?_eq_some_iff.2 hplace]
    have hupdate : onWorld (update path new) w =
        onWorld (if (w.write path (Text.encode new)).1 = true then pure ()
          else throw (.notUpdated path)) (w.write path (Text.encode new)).2 := rfl
    refine ⟨w.setAt names (.file (Text.encode new)), ?_, hplace.readText?_of_puts (hplace.puts _)⟩
    rw [onWorld_bind, hupdate, hwrite]
    rfl

/-- An insertion fails alike in all modes, before it changes anything, or it comes to the same
statement for the document in the file. -/
theorem insert_cases (w : World) (settingsPath? : Option Text) (file : Text) (target : Target)
    (options : InsertOptions) :
    (∃ failure, ∀ mode,
      onWorld (insert settingsPath? file target { options with mode }) w = (.error failure, w)) ∨
      ∃ text selected entry, w.readText? file = some text ∧ ∀ mode,
        onWorld (insert settingsPath? file target { options with mode }) w =
          onWorld (finishInsertion file mode (Document.ofText text) selected entry) w := by
  simp only [insert, onWorld_bind_of_keeps (keeps_document file)]
  cases hdocument : (onWorld (document file) w).1 with
  | error failure => exact .inl ⟨failure, fun _ => rfl⟩
  | ok d =>
    obtain ⟨text, htext, rfl⟩ := text_of_document hdocument
    let plan := planInsertion (m := StateM World) settingsPath? file (Document.ofText text) target
    have hplan (mode : Mode) : plan { options with mode } = plan options := rfl
    have hkeeps : Keeps (fun w : World => w) (plan options).run := keeps_planInsertion _ _ _ _ _
    simp only [plan] at hplan hkeeps
    simp only [hplan, onWorld_bind_of_keeps hkeeps]
    cases (onWorld (plan options) w).1 with
    | error failure => exact .inl ⟨failure, fun _ => rfl⟩
    | ok planned => exact .inr ⟨text, planned.1, planned.2, htext, fun _ => rfl⟩

/-- The same for a command, which fails at once if it has no target. -/
theorem execute_insert_cases (w : World) (settingsPath? : Option Text) (file : Text)
    (options : InsertOptions) :
    (∃ failure, ∀ mode,
      onWorld ((Command.insert file { options with mode }).execute settingsPath?) w =
        (.error failure, w)) ∨
      ∃ text selected entry, w.readText? file = some text ∧ options.target?.isSome ∧ ∀ mode,
        onWorld ((Command.insert file { options with mode }).execute settingsPath?) w =
          onWorld (finishInsertion file mode (Document.ofText text) selected entry) w := by
  simp only [Command.execute]
  cases options.target? with
  | none => exact .inl ⟨.noTarget, fun _ => rfl⟩
  | some target =>
    refine (insert_cases w settingsPath? file target options).imp_right ?_
    rintro ⟨text, selected, entry, htext, hfinish⟩
    exact ⟨text, selected, entry, htext, rfl, hfinish⟩

/-- A removal fails alike in all modes, before it changes anything, or it comes to the same document
and the tag that the command asks for. -/
theorem execute_remove_cases (w : World) (settingsPath? : Option Text) (file : Text)
    (tag? : Option Text) :
    (∃ failure, ∀ mode,
      onWorld ((Command.remove file tag? mode).execute settingsPath?) w = (.error failure, w)) ∨
      ∃ text tag, w.readText? file = some text ∧
        (onWorld (Run.tag tag? settingsPath?) w).1 = .ok tag ∧ ∀ mode,
        onWorld ((Command.remove file tag? mode).execute settingsPath?) w =
          onWorld (finishRemoval file mode (Document.ofText text) tag) w := by
  simp only [Command.execute, remove, onWorld_bind_of_keeps (keeps_document file)]
  cases hdocument : (onWorld (document file) w).1 with
  | error failure => exact .inl ⟨failure, fun _ => rfl⟩
  | ok d =>
    obtain ⟨text, htext, rfl⟩ := text_of_document hdocument
    simp only [onWorld_bind_of_keeps (keeps_tag tag? settingsPath?)]
    cases (onWorld (tag tag? settingsPath?) w).1 with
    | error failure => exact .inl ⟨failure, fun _ => rfl⟩
    | ok tag => exact .inr ⟨text, tag, htext, rfl, fun _ => rfl⟩

/-- A removal leaves its text in the file, also where there is nothing to remove. -/
theorem onWorld_finishRemoval_apply {text : Text} (h : w.readText? file = some text) (tag : Tag) :
    ∃ lines after,
      onWorld (finishRemoval file .apply (Document.ofText text) tag) w = (.ok lines, after) ∧
        after.readText? file = some (Removal.ofText tag text).text := by
  rw [finishRemoval, if_neg (by decide)]
  by_cases hchanged : (Removal.ofText tag text).changed = true
  · obtain ⟨after, hupdate, hafter⟩ := onWorld_update h (Removal.ofText tag text).text
      (Report.removed (Removal.ofText tag text).removed)
    refine ⟨Report.removed (Removal.ofText tag text).removed, after, ?_, hafter⟩
    rw [Document.text_ofText, if_neg (not_not.2 hchanged), if_neg (by decide)]
    exact hupdate
  · have hsame : (Removal.ofText tag text).text = text := by
      simpa [Removal.ofText] using hchanged
    refine ⟨Report.nothingToRemove, w, ?_, hsame.symm ▸ h⟩
    rw [Document.text_ofText, if_pos hchanged]
    rfl

/-- The preview of a removal lists the statements that go. -/
theorem onWorld_finishRemoval_preview {text : Text} {tag : Tag}
    (h : 0 < (Removal.ofText tag text).removed) (w : World) :
    onWorld (finishRemoval file .preview (Document.ofText text) tag) w =
      (.ok (Report.removalPreview file (Removal.ofText tag text).removed
        ((Document.ofText text).statementLines tag)), w) := by
  have hchanged : (Removal.ofText tag text).changed = true :=
    (Removal.changed_ofText_iff tag text).2 h
  rw [finishRemoval, if_neg (by decide), Document.text_ofText, if_neg (not_not.2 hchanged),
    if_pos rfl]
  rfl

/-- Each statement of a listing has its line in the preview, with its number and without the blanks
around it. -/
theorem removalPreview_statementLines {d : Document} {tag : Tag} {listed : List (Nat × Text)}
    (h : d.statementLines tag = listed.map (Prod.map id Text.dropBreak)) (count : Nat) :
    Report.removalPreview file count (d.statementLines tag) =
      Report.preview ("Would delete ".toList ++ Text.numeral count ++
          " console.log statement(s) from ".toList ++ file ++ [':']) ::
        listed.map fun x => "  ".toList ++ Report.padLeft 5 (Text.numeral (x.1 + 1)) ++
          ": ".toList ++ Report.dimmed (Text.trim x.2) := by
  rw [Report.removalPreview, h, List.map_map]
  refine congrArg (_ :: ·) (List.map_congr_left fun x _ => ?_)
  rw [← Text.trim_dropBreak x.2]
  rfl

end Run

namespace Response

/-- What is printed, every line with its line feed. -/
def output (r : Response) : Text := r.lines.flatMap (· ++ ['\n'])

theorem output_singleton (code : Nat) (line : Text) (complaint? : Option Text) :
    output ⟨code, [line], complaint?⟩ = line ++ ['\n'] := List.append_nil _

end Response

namespace Program

variable {usual? : Option Text} {args : List Text} {i : Invocation}

/-- What the user is told on a tree, and the tree afterwards. -/
def onWorld (usual? : Option Text) (args : List Text) (w : World) : Response × World :=
  (respond (m := StateM World) usual? args).run w

theorem onWorld_of_error {interruption : Interruption}
    (h : Invocation.ofArguments args = .error interruption) (w : World) :
    onWorld usual? args w = (Response.ofInterruption interruption, w) := by
  rw [onWorld, respond, h]
  rfl

theorem onWorld_of_ok (h : Invocation.ofArguments args = .ok i) (w : World) :
    onWorld usual? args w =
      match Run.onWorld (i.command.execute (i.settings? <|> usual?)) w with
      | (.ok lines, after) => (⟨0, i.command.banner ++ lines, none⟩, after)
      | (.error failure, after) =>
        (⟨1, i.command.banner, some ("Error: ".toList ++ failure.message)⟩, after) := by
  rw [onWorld, respond, h]
  simp only [Invocation.run, StateT.run_bind]
  cases hresult : Run.onWorld (i.command.execute (i.settings? <|> usual?)) w with
  | mk result after =>
    rw [Run.onWorld] at hresult
    rw [hresult]
    cases result <;> rfl

/-- A command line in each of the modes. What asks for the mode stands between two parts of the
arguments of the command. -/
def commandLine (before : List Text) (name : String) (front back : List Text) (mode : Mode) :
    List Text :=
  before ++ name.toList :: (front ++ (mode.arguments ++ back))

/-- What the JSON that a command line prints tells of its run without it. `made` says that a change
was made, and `read` reads changes from what is printed. -/
structure Announces {α : Type} (read : Text → Except Json.Fault α) (made : α → Prop) (w : World)
    (usual? : Option Text) (line : Mode → List Text) : Prop where
  /-- The change that is printed is made. -/
  made : ∀ a, read (onWorld usual? (line .json) w).1.output = .ok a → made a
  /-- Where printing fails, the run fails in the same way. -/
  failed : (onWorld usual? (line .json) w).1.exitCode ≠ 0 →
    onWorld usual? (line .apply) w = onWorld usual? (line .json) w
  /-- A command that does not fail prints a change. -/
  printed : ∀ i, Invocation.ofArguments (line .apply) = .ok i →
    (onWorld usual? (line .json) w).1.exitCode = 0 →
      ∃ a, read (onWorld usual? (line .json) w).1.output = .ok a

namespace Announces

variable {α : Type} {read : Text → Except Json.Fault α} {made : α → Prop} {line : Mode → List Text}

/-- Nothing is announced by arguments that ask for no command. -/
theorem of_interruption (interruption : Interruption)
    (hargs : ∀ mode, Invocation.ofArguments (line mode) = .error interruption)
    (hread : (read (Response.ofInterruption interruption).output).isOk = false) :
    Announces read made w usual? line where
  made a ha := by
    rw [onWorld_of_error (hargs _)] at ha
    rw [ha] at hread
    cases hread
  failed _ := by rw [onWorld_of_error (hargs _), onWorld_of_error (hargs _)]
  printed i hi := absurd ((hargs _).symm.trans hi) nofun

/-- Nothing is announced by a command that fails. -/
theorem of_failure {i : Mode → Invocation} {failure : Failure}
    (hargs : ∀ mode, Invocation.ofArguments (line mode) = .ok (i mode))
    (hbanner : ∀ mode, mode ≠ .preview → (i mode).command.banner = [])
    (hfailure : ∀ mode, Run.onWorld ((i mode).command.execute ((i mode).settings? <|> usual?)) w =
      (.error failure, w))
    (hread : (read []).isOk = false) : Announces read made w usual? line := by
  have hrun (mode : Mode) (hmode : mode ≠ .preview) : onWorld usual? (line mode) w =
      (⟨1, [], some ("Error: ".toList ++ failure.message)⟩, w) := by
    rw [onWorld_of_ok (hargs mode), hfailure, hbanner mode hmode]
  refine ⟨fun a ha => ?_, fun _ => ?_, fun _ _ hcode => ?_⟩
  · rw [hrun .json nofun] at ha
    rw [show read [] = .ok a from ha] at hread
    cases hread
  · rw [hrun .apply nofun, hrun .json nofun]
  · rw [hrun .json nofun] at hcode
    cases hcode

/-- A change that is printed and made is announced. -/
theorem of_printed {json : Text} {after : World} {a : α}
    (hjson : onWorld usual? (line .json) w = (⟨0, [json], none⟩, after))
    (hread : read (json ++ ['\n']) = .ok a) (hmade : made a) :
    Announces read made w usual? line := by
  have hprinted : read (onWorld usual? (line .json) w).1.output = .ok a := by
    rw [hjson, Response.output_singleton]
    exact hread
  refine ⟨fun a' ha' => ?_, fun hfailed => ?_, fun _ _ _ => ⟨a, hprinted⟩⟩
  · obtain rfl : a = a' := Except.ok.inj (hprinted.symm.trans ha')
    exact hmade
  · rw [hjson] at hfailed
    exact absurd rfl hfailed

end Announces

/-- An entry is inserted: it becomes the line with its number, and is what the preview shows under
that number. -/
def InsertionMade (w : World) (usual? : Option Text) (line : Mode → List Text) (e : Entry) : Prop :=
  ∃ i file options text, Invocation.ofArguments (line .apply) = .ok i ∧
    i.command = .insert file options ∧ w.readText? file = some text ∧
    (onWorld usual? (line .apply) w).1.exitCode = 0 ∧
    (onWorld usual? (line .apply) w).2.readText? file =
      some ((Document.ofText text).insertLine e.insertionLine e.text).text ∧
    (onWorld usual? (line .preview) w).1.lines =
      [Report.previewBanner,
        Report.preview ("Insert before line ".toList ++ Text.numeral (nextCount e.insertionLine) ++
          " of ".toList ++ file ++ [':']),
        "  ".toList ++ e.text]

theorem announces_insertion (w : World) (usual? : Option Text) {before front back : List Text}
    (h : Invocation.grammar.ReadyAfter .empty before)
    (hready : InsertArguments.grammar.ReadyAfter .empty front)
    (hwithout : InsertArguments.grammar.DoesWithout Mode.flags .empty (front ++ back)) :
    let line := commandLine before "insert" front back
    Announces Report.readEntry (InsertionMade w usual? line) w usual? line := by
  intro line
  have hline (mode : Mode) : Invocation.ofArguments (line mode) =
      (Invocation.ofArguments (before ++ "insert".toList :: (front ++ back))).map
        (·.withMode mode) := Invocation.ofArguments_insert h hready hwithout mode
  cases hread : Invocation.ofArguments (before ++ "insert".toList :: (front ++ back)) with
  | error interruption =>
    refine Announces.of_interruption interruption (fun mode => ?_) ?_
    · rw [hline, hread]
      rfl
    · cases interruption with
      | misuse error => rfl
      | help => decide +kernel
      | version => decide +kernel
  | ok i =>
    obtain ⟨file, options, hcommand⟩ := Invocation.command_of_insert h hread
    have hargs (mode : Mode) :
        Invocation.ofArguments (line mode) =
          .ok ⟨i.settings?, .insert file { options with mode }⟩ := by
      rw [hline, hread]
      simp only [Except.map, Invocation.withMode, hcommand, Command.withMode]
    obtain ⟨failure, hfailure⟩ | ⟨text, selected, entry, htext, htarget, hfinish⟩ :=
      Run.execute_insert_cases w (i.settings? <|> usual?) file options
    · refine Announces.of_failure hargs (fun mode hmode => ?_) hfailure rfl
      simp only [Command.banner, hmode, false_and, if_false]
    · have hjson : onWorld usual? (line .json) w =
          (⟨0, [Report.entryJson entry], none⟩, w) := by
        rw [onWorld_of_ok (hargs _), hfinish]
        rfl
      have hpreview : onWorld usual? (line .preview) w =
          (⟨0, Report.previewBanner :: Report.insertionPreview file entry, none⟩, w) := by
        rw [onWorld_of_ok (hargs _), hfinish]
        simp only [Command.banner, htarget]
        rfl
      obtain ⟨after, hupdate, hafter⟩ := Run.onWorld_update htext
        ((Document.ofText text).insertEntry entry).text (Report.inserted selected entry)
      have happly : onWorld usual? (line .apply) w =
          (⟨0, Report.inserted selected entry, none⟩, after) := by
        rw [onWorld_of_ok (hargs _), hfinish, Run.finishInsertion, hupdate]
        rfl
      refine Announces.of_printed hjson (Report.readEntry_entryJson entry) ?_
      refine ⟨_, file, _, text, hargs .apply, rfl, htext, ?_, ?_, ?_⟩
      · rw [happly]
      · rw [happly]
        exact hafter
      · rw [hpreview]
        rfl

/-- A removal is made: the file has the text that is left. What is removed is listed from the text
before, by the tag that the command asks for, and the preview shows this listing, if there is any:
below a header with the number of statements a line for each, with its number counted from one. -/
def RemovalMade (w : World) (usual? : Option Text) (line : Mode → List Text) (r : Removal) : Prop :=
  ∃ i file tag? text tag listed, Invocation.ofArguments (line .apply) = .ok i ∧
    i.command = .remove file tag? .apply ∧ w.readText? file = some text ∧
    (Run.onWorld (Run.tag tag? (i.settings? <|> usual?)) w).1 = .ok tag ∧
    (onWorld usual? (line .apply) w).1.exitCode = 0 ∧
    (onWorld usual? (line .apply) w).2.readText? file = some r.text ∧
    Document.ListsStatements tag text listed ∧ listed.length = r.removed ∧
    (0 < r.removed → (onWorld usual? (line .preview) w).1.lines =
      Report.previewBanner ::
        Report.preview ("Would delete ".toList ++ Text.numeral r.removed ++
          " console.log statement(s) from ".toList ++ file ++ [':']) ::
        listed.map fun x => "  ".toList ++ Report.padLeft 5 (Text.numeral (x.1 + 1)) ++
          ": ".toList ++ Report.dimmed (Text.trim x.2))

theorem announces_removal (w : World) (usual? : Option Text) {before front back : List Text}
    (h : Invocation.grammar.ReadyAfter .empty before)
    (hready : RemoveArguments.grammar.ReadyAfter .empty front)
    (hwithout : RemoveArguments.grammar.DoesWithout Mode.flags .empty (front ++ back)) :
    let line := commandLine before "remove" front back
    Announces Report.readRemoval (RemovalMade w usual? line) w usual? line := by
  intro line
  have hline (mode : Mode) : Invocation.ofArguments (line mode) =
      (Invocation.ofArguments (before ++ "remove".toList :: (front ++ back))).map
        (·.withMode mode) := Invocation.ofArguments_remove h hready hwithout mode
  cases hread : Invocation.ofArguments (before ++ "remove".toList :: (front ++ back)) with
  | error interruption =>
    refine Announces.of_interruption interruption (fun mode => ?_) ?_
    · rw [hline, hread]
      rfl
    · cases interruption with
      | misuse error => rfl
      | help => decide +kernel
      | version => decide +kernel
  | ok i =>
    obtain ⟨file, tag?, mode, hcommand⟩ := Invocation.command_of_remove h hread
    have hargs (mode : Mode) :
        Invocation.ofArguments (line mode) =
          .ok ⟨i.settings?, .remove file tag? mode⟩ := by
      rw [hline, hread]
      simp only [Except.map, Invocation.withMode, hcommand, Command.withMode]
    obtain ⟨failure, hfailure⟩ | ⟨text, tag, htext, htag, hfinish⟩ :=
      Run.execute_remove_cases w (i.settings? <|> usual?) file tag?
    · refine Announces.of_failure hargs (fun mode hmode => ?_) hfailure rfl
      simp only [Command.banner, hmode, if_false]
    · have hjson : onWorld usual? (line .json) w =
          (⟨0, [Report.removalJson (Removal.ofText tag text)], none⟩, w) := by
        rw [onWorld_of_ok (hargs _), hfinish]
        rfl
      obtain ⟨lines, after, hremove, hafter⟩ := Run.onWorld_finishRemoval_apply htext tag
      have happly : onWorld usual? (line .apply) w =
          (⟨0, lines, none⟩, after) := by
        rw [onWorld_of_ok (hargs _), hfinish, hremove]
        rfl
      refine Announces.of_printed hjson (Report.readRemoval_removalJson _) ?_
      obtain ⟨listed, hlisted, hlines⟩ :=
        Document.exists_listsStatements (Document.ofText text) tag
      refine ⟨_, file, tag?, text, tag, listed, hargs .apply, rfl, htext, htag, ?_, ?_, hlisted, ?_,
        fun hpos => ?_⟩
      · rw [happly]
      · rw [happly]
        exact hafter
      · calc listed.length = ((Document.ofText text).statementLines tag).length := by
              rw [hlines, List.length_map]
          _ = (Removal.ofText tag text).removed := by
              rw [Document.length_statementLines, Document.text_ofText, Removal.removed_ofText]
      · rw [onWorld_of_ok (hargs _), hfinish, Run.onWorld_finishRemoval_preview hpos,
          ← Run.removalPreview_statementLines hlines]
        rfl

/-- What is announced is what is done, for every tree and every command line that asks for a change
without `--json` and `--dry-run`, wherever these are added. -/
theorem announces_changes (w : World) (usual? : Option Text) (before front back : List Text)
    (h : Invocation.grammar.ReadyAfter .empty before) :
    (InsertArguments.grammar.ReadyAfter .empty front →
      InsertArguments.grammar.DoesWithout Mode.flags .empty (front ++ back) →
        let line := commandLine before "insert" front back
        Announces Report.readEntry (InsertionMade w usual? line) w usual? line) ∧
      (RemoveArguments.grammar.ReadyAfter .empty front →
        RemoveArguments.grammar.DoesWithout Mode.flags .empty (front ++ back) →
          let line := commandLine before "remove" front back
          Announces Report.readRemoval (RemovalMade w usual? line) w usual? line) :=
  ⟨announces_insertion w usual? h, announces_removal w usual? h⟩

/-- An insertion into a file, and the removal of the two statements that are in it. Its preview
shows their lines, the third without the line break that the second has. -/
theorem announces_changes_of_x :
    let text := "let x;\n\tconsole.log(\"T L :: f :: s :: 1 :: x:\", x);\r\n".toList ++
      "console.log(\"T L :: f :: s :: 12 :: y:\", y)".toList
    let w : World := ⟨.directory [("a.js".toList, .file (Text.encode text))], []⟩
    let insertion := commandLine ["-v".toList] "insert" ["a.js".toList, "-l1".toList]
      ["-ex".toList, "-tT".toList]
    let removal := commandLine ["-v".toList] "remove" ["-t".toList, "T".toList] ["a.js".toList]
    (∃ e, Report.readEntry (onWorld none (insertion .json) w).1.output = .ok e ∧
      InsertionMade w none insertion e) ∧
      (∃ r, Report.readRemoval (onWorld none (removal .json) w).1.output = .ok r ∧
        RemovalMade w none removal r ∧ r.removed = 2) ∧
      (onWorld none (removal .preview) w).1.lines =
        ["\x1b[34m(DRY-RUN MODE - no changes will be made)\x1b[39m".toList,
          "\x1b[34m[DRY-RUN]\x1b[39m Would delete 2 console.log statement(s) from a.js:".toList,
          "      2: \x1b[2mconsole.log(\"T L :: f :: s :: 1 :: x:\", x);\x1b[0m".toList,
          "      3: \x1b[2mconsole.log(\"T L :: f :: s :: 12 :: y:\", y)\x1b[0m".toList] := by
  intro text w insertion removal
  have hready : Invocation.grammar.ReadyAfter .empty ["-v".toList] := by
    rintro _ ⟨⟩
    exact ⟨_, rfl⟩
  refine ⟨?_, ?_, by decide +kernel⟩
  · have h := (announces_changes w none ["-v".toList] ["a.js".toList, "-l1".toList]
      ["-ex".toList, "-tT".toList] hready).1 (by rintro _ ⟨⟩; exact ⟨_, rfl⟩) nofun
    obtain ⟨e, he⟩ := h.printed _ rfl (by decide +kernel)
    exact ⟨e, he, h.made e he⟩
  · have h := (announces_changes w none ["-v".toList] ["-t".toList, "T".toList] ["a.js".toList]
      hready).2 (by rintro _ ⟨⟩; exact ⟨_, rfl⟩) nofun
    have hcount : (Report.readRemoval (onWorld none (removal .json) w).1.output).map (·.removed) =
        .ok 2 := by decide +kernel
    cases hr : Report.readRemoval (onWorld none (removal .json) w).1.output with
    | error fault =>
      rw [hr] at hcount
      cases hcount
    | ok r =>
      rw [hr] at hcount
      exact ⟨r, rfl, h.made r hr, Except.ok.inj hcount⟩

end Program
end Logmark
