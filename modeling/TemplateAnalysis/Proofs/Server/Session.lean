import TemplateAnalysis.Proofs.Server.Following
import TemplateAnalysis.Server.Session

namespace TemplateAnalysis.Server

namespace Message

/-- Whether a session goes on after a message: it does not ask for the end, and it can be understood if
    it wants no answer. -/
def IsOrdinary : Message → Prop
  | .request _ method _ => method ≠ "shutdown"
  | .notification method params => (Notice.ofParams? method params).isSome
  | .response => True

instance : DecidablePred IsOrdinary := fun message =>
  match message with
  | .request _ method _ => inferInstanceAs (Decidable (method ≠ "shutdown"))
  | .notification method params =>
    inferInstanceAs (Decidable ((Notice.ofParams? method params).isSome = true))
  | .response => inferInstanceAs (Decidable True)

/-- Whether a message wants an answer. -/
def isRequest : Message → Bool
  | .request _ _ _ => true
  | _ => false

/-- What a message tells without asking for anything. -/
def notice? : Message → Option Notice
  | .notification method params => Notice.ofParams? method params
  | _ => none

end Message

namespace State

/-- The state after a message with what is sent because of it. What cannot be understood changes
    nothing. -/
def exchange (state : State) (message : Message) : State × List Reply :=
  (state.handle? message).getD (state, [])

/-- The state after some messages. -/
def reached (state : State) (messages : List Message) : State :=
  messages.foldl (fun state message => (state.exchange message).1) state

/-- What is sent because of each of some messages. -/
def replies (state : State) : List Message → List (List Reply)
  | [] => []
  | message :: rest => (state.exchange message).2 :: (state.exchange message).1.replies rest

/-- The state in which a server begins to listen, with what it has sent before. -/
def opening (files : FileTree) (settings : Settings) (arrangement : Arrangement := {}) :
    State × List Reply :=
  (start files settings arrangement).diagnostics

/-- The state after some messages to a server that has begun to listen. -/
def listening (files : FileTree) (settings : Settings) (messages : List Message)
    (arrangement : Arrangement := {}) : State :=
  (opening files settings arrangement).1.reached messages

/-- All that is sent to a client up to the end of some messages. -/
def sent (files : FileTree) (settings : Settings) (messages : List Message)
    (arrangement : Arrangement := {}) : List Reply :=
  (opening files settings arrangement).2 ++
    ((opening files settings arrangement).1.replies messages).flatten

theorem replies_append (state : State) (before after : List Message) :
    state.replies (before ++ after) =
      state.replies before ++ (state.reached before).replies after := by
  induction before generalizing state with
  | nil => rfl
  | cons message rest ih => exact congrArg _ (ih _)

theorem handle?_of_isOrdinary (state : State) {message : Message} (hordinary : message.IsOrdinary) :
    state.handle? message = some (state.exchange message) := by
  cases message with
  | request id method params => rfl
  | notification method params =>
    obtain ⟨notice, hnotice⟩ := Option.isSome_iff_exists.mp hordinary
    simp only [exchange, handle?, hnotice, Option.map_some, Option.getD_some]
  | response => rfl

end State

/-- A session goes on after an ordinary message. -/
theorem Session.ofMessages_cons (state : State) {message : Message} (hordinary : message.IsOrdinary)
    (rest : List Message) : ofMessages state (message :: rest) =
      (ofMessages (state.exchange message).1 rest).after (state.exchange message).2 := by
  rw [ofMessages]
  · rw [state.handle?_of_isOrdinary hordinary]
  · rintro id params rfl
    exact hordinary rfl

/-- What a file that is read at the beginning tells, as if a client had opened it. -/
def noticeOf? (files : FileTree) (file : Discovery.Found) : Option Notice :=
  (files.file? file.route).bind fun text =>
    (uriOf? files file.path).map fun uri => .written uri text

/-- What the files tell that are read at the beginning. -/
def preloaded (files : FileTree) (settings : Settings) : List Notice :=
  (Discovery.workspaceFiles settings files).filterMap (noticeOf? files)

/-- All notices that a server has had after some messages. -/
def noticesOf (files : FileTree) (settings : Settings) (messages : List Message) : List Notice :=
  preloaded files settings ++ messages.filterMap Message.notice?

theorem noticesOf_append (files : FileTree) (settings : Settings) (before after : List Message) :
    noticesOf files settings (before ++ after) =
      noticesOf files settings before ++ after.filterMap Message.notice? := by
  rw [noticesOf, noticesOf, List.filterMap_append, List.append_assoc]

namespace State.Follows

variable {files : FileTree} {settings : Settings} {arrangement : Arrangement} {shelf : Shelf}
  {state first second : State}

theorem preload (hfollows : Follows files settings arrangement shelf state) (found : List Discovery.Found) :
    Follows files settings arrangement
      ((found.filterMap (noticeOf? files)).foldl (Shelf.receive settings) shelf)
      (found.foldl preloadFile state) := by
  induction found generalizing shelf state with
  | nil => exact hfollows
  | cons file rest ih =>
    rw [List.foldl_cons, preloadFile, hfollows.files, List.filterMap_cons, noticeOf?]
    cases hread : files.file? file.route with
    | none => exact ih hfollows
    | some text =>
      cases huri : uriOf? files file.path with
      | none => exact ih hfollows
      | some uri =>
        simp only [Option.bind_some, Option.map_some, List.foldl_cons, Shelf.receive]
        by_cases hknown : (settings.languageOf? uri).isSome
        · obtain ⟨loaded, hload, hloaded⟩ := hfollows.load? text hknown
          rw [hload, if_pos hknown]
          exact ih hloaded
        · rw [hfollows.load?_eq_none text hknown, if_neg hknown]
          exact ih hfollows

theorem start (files : FileTree) (settings : Settings) (arrangement : Arrangement) :
    Follows files settings arrangement (.ofNotices settings (preloaded files settings))
      (State.start files settings arrangement) := by
  have hinitial : Follows files settings arrangement {}
      { files, workspace := .ofSettings settings arrangement } :=
    ⟨rfl, rfl, .initial settings {} arrangement, rfl⟩
  exact hinitial.preload _

theorem exchange (hfollows : Follows files settings arrangement shelf state) (message : Message) :
    Follows files settings arrangement (message.notice?.toList.foldl (Shelf.receive settings) shelf)
      (state.exchange message).1 := by
  cases message with
  | request id method params => exact hfollows.reply id method params
  | notification method params =>
    simp only [State.exchange, State.handle?, Message.notice?]
    cases Notice.ofParams? method params with
    | none => exact hfollows
    | some notice => exact hfollows.receive notice
  | response => exact hfollows

/-- Whatever a server is told, it knows what it has to know. -/
theorem reached (hfollows : Follows files settings arrangement shelf state) (messages : List Message) :
    Follows files settings arrangement
      ((messages.filterMap Message.notice?).foldl (Shelf.receive settings) shelf)
      (state.reached messages) := by
  induction messages generalizing shelf state with
  | nil => exact hfollows
  | cons message rest ih =>
    have hlater := ih (hfollows.exchange message)
    rw [← List.foldl_append] at hlater
    rw [List.filterMap_cons]
    cases hnotice : message.notice? with
    | none => rwa [hnotice] at hlater
    | some notice => rwa [hnotice] at hlater

theorem listening (files : FileTree) (settings : Settings) (messages : List Message)
    (arrangement : Arrangement) :
    Follows files settings arrangement (.ofNotices settings (noticesOf files settings messages))
      (State.listening files settings messages arrangement) := by
  have hreached := (start files settings arrangement).diagnostics.reached messages
  rwa [Shelf.ofNotices, ← List.foldl_append] at hreached

end State.Follows

end TemplateAnalysis.Server
