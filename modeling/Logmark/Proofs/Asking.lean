import Logmark.Command.Run
import Logmark.Files.Machine

/-!
Commands that ask about files and change none. In a monad with a state, what a view shows of the
state stays as it is as long as a command only asks; all that a command does before it writes is of
this kind.
-/
namespace Logmark

variable {σ β α γ : Type}

/-- What `view` shows of the state is the same after `x`. -/
def Keeps (view : σ → β) (x : StateM σ α) : Prop := ∀ s, view (x.run s).2 = view s

namespace Keeps

variable {view : σ → β}

theorem pure (a : α) : Keeps view (Pure.pure a) := fun _ => rfl

theorem bind {x : StateM σ α} {f : α → StateM σ γ} (hx : Keeps view x)
    (hf : ∀ a, Keeps view (f a)) : Keeps view (x >>= f) :=
  fun s => (hf (x.run s).1 (x.run s).2).trans (hx s)

theorem findSomeM? {f : α → StateM σ (Option γ)} (hf : ∀ a, Keeps view (f a)) (as : List α) :
    Keeps view (as.findSomeM? f) := by
  induction as with
  | nil => exact pure none
  | cons a as ih =>
    rw [List.findSomeM?_cons]
    refine bind (hf a) fun found? => ?_
    cases found? with
    | none => exact ih
    | some c => exact pure _

/-- In a run that may fail, what comes after a failure is left out. -/
theorem run_bind {x : Run (StateM σ) α} {f : α → Run (StateM σ) γ} (hx : Keeps view x.run)
    (hf : ∀ a, Keeps view (f a).run) : Keeps view (x >>= f).run := by
  rw [ExceptT.run_bind]
  refine bind hx fun result => ?_
  cases result with
  | ok a => exact hf a
  | error failure => exact pure _

theorem run_pure (a : α) : Keeps view (Pure.pure a : Run (StateM σ) α).run := fun _ => rfl

theorem run_throw (failure : Failure) : Keeps view (throw failure : Run (StateM σ) α).run :=
  fun _ => rfl

theorem run_ask {x : StateM σ α} (hx : Keeps view x) : Keeps view (Run.ask x).run :=
  hx.bind fun a => pure (Except.ok a)

end Keeps

/-- A run goes on with the answer to a question. -/
theorem Run.run_ask_bind (x : StateM σ α) (f : α → Run (StateM σ) γ) :
    (Run.ask x >>= f).run = x >>= fun a => (f a).run := rfl

/-- Asking about files changes nothing that `view` shows. -/
class KeepsAsking (view : σ → β) [Files (StateM σ)] : Prop where
  isFile : ∀ path, Keeps view (Files.isFile (m := StateM σ) path)
  isThere : ∀ path, Keeps view (Files.isThere (m := StateM σ) path)
  read? : ∀ path, Keeps view (Files.read? (m := StateM σ) path)
  canonical? : ∀ path, Keeps view (Files.canonical? (m := StateM σ) path)

instance : KeepsAsking (fun w : World => w) where
  isFile _ _ := rfl
  isThere _ _ := rfl
  read? _ _ := rfl
  canonical? _ _ := rfl

/-- A request that changes nothing on a tree changes nothing if it is refused either. -/
theorem Machine.keeps_request {view : World → β} {refusal : α} {x : StateM World α}
    (hx : Keeps view x) : Keeps (fun s : Machine => view s.world) (request refusal x) := by
  intro s
  rcases s with ⟨w, _ | ⟨refused, refusals⟩⟩
  · exact hx w
  · cases refused with
    | true => rfl
    | false => exact hx w

theorem Machine.keeps_world {refusal : α} {x : StateM World α} (hx : Keeps (fun w => w) x) :
    Keeps Machine.world (request refusal x) := keeps_request hx

instance : KeepsAsking Machine.world where
  isFile path := Machine.keeps_world (KeepsAsking.isFile path)
  isThere path := Machine.keeps_world (KeepsAsking.isThere path)
  read? path := Machine.keeps_world (KeepsAsking.read? path)
  canonical? path := Machine.keeps_world (KeepsAsking.canonical? path)

section Questions

variable {view : σ → β} [Files (StateM σ)] [KeepsAsking view]

theorem Files.keeps_readText? (path : Text) : Keeps view (Files.readText? (m := StateM σ) path) :=
  Keeps.bind (KeepsAsking.read? path) fun _ => Keeps.pure _

theorem Files.keeps_load (ofJson : Text → Except Json.Fault α) (path : Text) :
    Keeps view (Files.load (m := StateM σ) ofJson path) := by
  refine Keeps.bind (Files.keeps_readText? path) fun text? => ?_
  cases text? <;> exact Keeps.pure _

theorem Outline.keeps_loadOrEmpty (path? : Option Text) :
    Keeps view (Outline.loadOrEmpty (m := StateM σ) path?) := by
  cases path? with
  | none => exact Keeps.pure _
  | some path => exact Keeps.bind (Files.keeps_load _ path) fun _ => Keeps.pure _

theorem Settings.keeps_load (path : Text) : Keeps view (Settings.load (m := StateM σ) path) := by
  refine Keeps.bind (KeepsAsking.isThere path) fun there => ?_
  cases there with
  | true => exact Files.keeps_load _ path
  | false => exact Keeps.pure _

theorem Tag.keeps_choose (asked? settingsPath? : Option Text) :
    Keeps view (Tag.choose (m := StateM σ) asked? settingsPath?) := by
  cases asked? with
  | some asked => exact Keeps.pure _
  | none =>
    cases settingsPath? with
    | none => exact Keeps.pure _
    | some path => exact Keeps.bind (Settings.keeps_load path) fun _ => Keeps.pure _

theorem keeps_workspaceLabel (path : Text) :
    Keeps view (workspaceLabel (m := StateM σ) path) := by
  refine Keeps.bind (KeepsAsking.canonical? path) fun canonical? => ?_
  refine Keeps.bind (Keeps.findSomeM? (fun directory => ?_) _) fun root? => Keeps.pure _
  refine Keeps.bind (KeepsAsking.isThere _) fun there => ?_
  cases there <;> exact Keeps.pure _

namespace Run

theorem keeps_document (path : Text) : Keeps view (document (m := StateM σ) path).run := by
  refine Keeps.run_bind (Keeps.run_ask (KeepsAsking.isFile path)) fun there => ?_
  cases there
  case' false => refine Keeps.run_bind (Keeps.run_throw _) fun _ => ?_
  -- Whether there is a file or not, the program that follows goes on to read it.
  all_goals
    refine Keeps.run_bind (Keeps.run_ask (Files.keeps_readText? path)) fun text? => ?_
    cases text? with
    | none => exact Keeps.run_throw _
    | some text => exact Keeps.run_pure _

theorem keeps_tag (asked? settingsPath? : Option Text) :
    Keeps view (tag (m := StateM σ) asked? settingsPath?).run := by
  refine Keeps.run_bind (Keeps.run_ask (Tag.keeps_choose asked? settingsPath?)) fun chosen => ?_
  cases chosen with
  | ok tag => exact Keeps.run_pure _
  | error error => exact Keeps.run_throw _

theorem keeps_label (given? : Option Text) (file : Text) :
    Keeps view (label (m := StateM σ) given? file).run := by
  cases given? with
  | some label => exact Keeps.run_pure _
  | none => exact Keeps.run_ask (keeps_workspaceLabel file)

theorem keeps_planInsertion (settingsPath? : Option Text) (file : Text) (d : Document)
    (target : Target) (options : InsertOptions) :
    Keeps view (planInsertion (m := StateM σ) settingsPath? file d target options).run := by
  refine Keeps.run_bind (keeps_tag _ _) fun tag => ?_
  refine Keeps.run_bind (Keeps.run_ask (Outline.keeps_loadOrEmpty _)) fun outline => ?_
  refine Keeps.run_bind (keeps_label _ file) fun label => ?_
  refine Keeps.run_bind (Keeps.run_ask (KeepsAsking.canonical? file)) fun canonical? => ?_
  dsimp only
  split
  · exact Keeps.run_throw _
  · exact Keeps.run_pure _

theorem keeps_locate (path : Text) (position : Position) :
    Keeps view (locate (m := StateM σ) path position).run := by
  refine Keeps.run_bind (Keeps.run_ask (Files.keeps_load _ path)) fun loaded => ?_
  cases loaded with
  | ok outline => exact Keeps.run_pure _
  | error error => exact Keeps.run_throw _

omit [Files (StateM σ)] [KeepsAsking view] in
theorem keeps_settingsPath (settingsPath? : Option Text) :
    Keeps view (settingsPath (m := StateM σ) settingsPath?).run := by
  cases settingsPath? with
  | none => exact Keeps.run_throw _
  | some path => exact Keeps.run_pure _

theorem keeps_loadSettings (path : Text) :
    Keeps view (loadSettings (m := StateM σ) path).run := by
  refine Keeps.run_bind (Keeps.run_ask (Settings.keeps_load path)) fun loaded => ?_
  cases loaded with
  | ok settings => exact Keeps.run_pure _
  | error error => exact Keeps.run_throw _

theorem keeps_showTag (settingsPath? : Option Text) :
    Keeps view (showTag (m := StateM σ) settingsPath?).run :=
  Keeps.run_bind (keeps_settingsPath settingsPath?) fun path =>
    Keeps.run_bind (keeps_loadSettings path) fun _ => Keeps.run_pure _

end Run
end Questions
end Logmark
