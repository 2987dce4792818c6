import Mathlib.Data.List.Forall2
import TemplateAnalysis.Proofs.Server.Session

namespace TemplateAnalysis.Server

/-- How a reply answers a request. It has the mark of the request. It is a result if the request can be
    understood, and otherwise it tells whether the parameters are malformed or the method is unknown. -/
inductive Responds : Message → Reply → Prop
  | result {id : MessageId} {method : String} {params : Json} {read : Json → Option Request}
      {request : Request} {answer : Answer} (hknown : Request.reader? method = some read)
      (hread : read params = some request) :
      Responds (.request id method params) (.result id answer)
  | malformed {id : MessageId} {method : String} {params : Json} {read : Json → Option Request}
      (hknown : Request.reader? method = some read) (hread : read params = none) :
      Responds (.request id method params) (.refusal id .malformedParams)
  | unknown {id : MessageId} {method : String} {params : Json}
      (hunknown : Request.reader? method = none) :
      Responds (.request id method params) (.refusal id (.unknownMethod method))

/-- Whether a reply answers a request. -/
def Reply.isResponse : Reply → Bool
  | .result _ _ => true
  | .refusal _ _ => true
  | .diagnostics _ _ => false

theorem Responds.isResponse {message : Message} {reply : Reply} (hresponds : Responds message reply) :
    reply.isResponse = true := by
  cases hresponds <;> rfl

namespace Message

/-- Whether a message asks the server to end. -/
def AsksForEnd : Message → Prop
  | .request _ method _ => method = "shutdown"
  | _ => False

instance : DecidablePred AsksForEnd := fun message =>
  match message with
  | .request _ method _ => inferInstanceAs (Decidable (method = "shutdown"))
  | .notification _ _ | .response => inferInstanceAs (Decidable False)

/-- A session can only break off at a notification that cannot be understood. -/
theorem exists_of_not_isOrdinary {message : Message} (hend : ¬ message.AsksForEnd)
    (hbreaks : ¬ message.IsOrdinary) : ∃ method params,
      message = .notification method params ∧ Notice.ofParams? method params = none := by
  cases message with
  | request id method params => exact absurd hend hbreaks
  | notification method params => exact ⟨method, params, rfl, Option.not_isSome_iff_eq_none.mp hbreaks⟩
  | response => exact absurd trivial hbreaks

end Message

namespace State

theorem reply_responds (state : State) (id : MessageId) (method : String) (params : Json) :
    Responds (.request id method params) (state.reply id method params).2 := by
  rw [reply, Request.ofParams]
  cases hknown : Request.reader? method with
  | none => exact .unknown hknown
  | some read =>
    cases hread : read params with
    | none => simpa only [hread] using .malformed hknown hread
    | some request => simpa only [hread] using .result hknown hread

/-- A request that is refused leaves everything as it is. -/
theorem exchange_refused (state : State) {id : MessageId} {method : String} {params : Json}
    {error : RequestError} (hrefused : Request.ofParams method params = .error error) :
    (state.exchange (.request id method params)).1 = state := by
  simp only [exchange, handle?, reply, hrefused, Option.getD_some]

theorem isResponse_diagnosticsOf (state : State) (filenames : List String) :
    ∀ reply ∈ (state.diagnosticsOf filenames).2, reply.isResponse = false := by
  induction filenames generalizing state with
  | nil => exact List.forall_mem_nil _
  | cons filename rest ih =>
    rw [diagnosticsOf]
    split
    next => exact ih state
    next => exact List.forall_mem_cons.mpr ⟨rfl, ih _⟩

theorem isResponse_diagnostics (state : State) :
    ∀ reply ∈ state.diagnostics.2, reply.isResponse = false := by
  rw [diagnostics]
  split
  next => exact List.forall_mem_nil _
  next => exact state.isResponse_diagnosticsOf _

/-- Undefined variables are all that is sent because of a notice. -/
theorem isResponse_receive (state : State) (notice : Notice) :
    ∀ reply ∈ (state.receive notice).2, reply.isResponse = false := by
  unfold receive
  split
  next =>
    split
    next loaded _ => exact loaded.isResponse_diagnostics
    next => exact List.forall_mem_nil _
  next => exact List.forall_mem_nil _
  next => exact isResponse_diagnostics _
  next => exact List.forall_mem_nil _

/-- One message gets one response if it is a request, and none otherwise. -/
theorem exchange_responds (state : State) (message : Message) :
    List.Forall₂ Responds ([message].filter Message.isRequest)
      ((state.exchange message).2.filter Reply.isResponse) := by
  have hquiet : ∀ {replies : List Reply}, (∀ reply ∈ replies, reply.isResponse = false) →
      replies.filter Reply.isResponse = [] := fun hnone =>
    List.filter_eq_nil_iff.mpr fun reply hmem => by simp [hnone reply hmem]
  cases message with
  | request id method params =>
    have hresponds := state.reply_responds id method params
    rw [List.filter_cons_of_pos rfl, exchange, handle?, Option.getD_some,
      List.filter_cons_of_pos hresponds.isResponse]
    exact .cons hresponds .nil
  | notification method params =>
    rw [exchange, handle?]
    cases Notice.ofParams? method params with
    | none => exact .nil
    | some notice =>
      rw [Option.map_some, Option.getD_some, hquiet (state.isResponse_receive notice)]
      exact .nil
  | response => exact .nil

/-- The requests among some messages get one response each, in their order. -/
theorem replies_respond (state : State) (messages : List Message) :
    List.Forall₂ Responds (messages.filter Message.isRequest)
      ((state.replies messages).flatten.filter Reply.isResponse) := by
  induction messages generalizing state with
  | nil => exact .nil
  | cons message rest ih =>
    rw [← List.singleton_append, List.filter_append, List.singleton_append, replies,
      List.flatten_cons, List.filter_append]
    exact List.rel_append (state.exchange_responds message) (ih _)

theorem sent_responds (files : FileTree) (settings : Settings) (messages : List Message)
    (arrangement : Arrangement) : List.Forall₂ Responds (messages.filter Message.isRequest)
      ((sent files settings messages arrangement).filter Reply.isResponse) := by
  have hopening : (opening files settings arrangement).2.filter Reply.isResponse = [] :=
    List.filter_eq_nil_iff.mpr fun reply hmem => by simp [isResponse_diagnostics _ reply hmem]
  rw [sent, List.filter_append, hopening, List.nil_append]
  exact replies_respond _ messages

end State

/-- How far a session comes with some messages: it has handled a part of them, and then there are no more
    or there is a notification that it cannot understand. -/
structure Handles (files : FileTree) (settings : Settings) (arrangement : Arrangement)
    (handled rest : List Message) (session : Session) : Prop where
  /-- The part that is handled has no notification that cannot be understood. -/
  ordinary : ∀ message ∈ handled, message.IsOrdinary
  /-- The session ends without an error if nothing is left, and otherwise it breaks off at a notification
      that cannot be understood. -/
  ending : rest = [] ∧ session.ending = .finished ∨
    ∃ method params later, rest = .notification method params :: later ∧
      Notice.ofParams? method params = none ∧ session.ending = .failed
  /-- What is sent is what is sent at first and then because of each message that is handled. -/
  replies : session.replies = State.sent files settings handled arrangement
  /-- Each request gets exactly one response, in the order of the requests. -/
  responses : List.Forall₂ Responds (handled.filter Message.isRequest)
    (session.replies.filter Reply.isResponse)
  /-- A request whose parameters are malformed, or whose method is unknown, leaves everything as it
      is. -/
  refused : ∀ before id method params error, before ++ [.request id method params] <+: handled →
    Request.ofParams method params = .error error →
    State.listening files settings (before ++ [.request id method params]) arrangement =
      State.listening files settings before arrangement

/-- A session breaks off at the first notification that cannot be understood. -/
theorem Session.ofMessages_cases (state : State) {messages : List Message}
    (hends : ∀ message ∈ messages, ¬ message.AsksForEnd) :
    ∃ handled rest, messages = handled ++ rest ∧ (∀ message ∈ handled, message.IsOrdinary) ∧
      (ofMessages state messages).replies = (state.replies handled).flatten ∧
      (rest = [] ∧ (ofMessages state messages).ending = .finished ∨
        ∃ method params later, rest = .notification method params :: later ∧
          Notice.ofParams? method params = none ∧ (ofMessages state messages).ending = .failed) := by
  induction messages generalizing state with
  | nil => exact ⟨[], [], rfl, List.forall_mem_nil _, rfl, .inl ⟨rfl, rfl⟩⟩
  | cons message later ih =>
    obtain ⟨hend, hlater⟩ := List.forall_mem_cons.mp hends
    by_cases hordinary : message.IsOrdinary
    · obtain ⟨handled, rest, rfl, hall, hreplies, hending⟩ := ih (state.exchange message).1 hlater
      refine ⟨message :: handled, rest, rfl, List.forall_mem_cons.mpr ⟨hordinary, hall⟩, ?_, ?_⟩
      · rw [ofMessages_cons state hordinary, after, hreplies]
        rfl
      · rw [ofMessages_cons state hordinary, after]
        exact hending
    · obtain ⟨method, params, rfl, hnone⟩ := Message.exists_of_not_isOrdinary hend hordinary
      have hbreak : ofMessages state (.notification method params :: later) =
          { replies := [], ending := .failed } := by
        rw [ofMessages]
        · simp only [State.handle?, hnone, Option.map_none]
        · rintro id params ⟨⟩
      rw [hbreak]
      exact ⟨[], _, rfl, List.forall_mem_nil _, rfl, .inr ⟨method, params, later, rfl, hnone, rfl⟩⟩

/-- Whatever a client sends before it asks for the end, the server handles it up to the first notification
    that it cannot understand. So it handles everything and ends without an error if there is none. -/
theorem run_handles (files : FileTree) {params : Json} {settings : Settings} (arrangement : Arrangement)
    (hsettings : Session.settings? params = some settings) {messages : List Message}
    (hends : ∀ message ∈ messages, ¬ message.AsksForEnd) :
    ∃ handled rest, messages = handled ++ rest ∧
      Handles files settings arrangement handled rest
        (Session.run files params messages arrangement) := by
  obtain ⟨handled, rest, hmessages, hordinary, hreplies, hending⟩ :=
    Session.ofMessages_cases (State.opening files settings arrangement).1 hends
  have hrun : Session.run files params messages arrangement =
      (Session.ofMessages (State.opening files settings arrangement).1 messages).after
        (State.opening files settings arrangement).2 := by
    simp only [Session.run, hsettings]
    rfl
  have hsent : (Session.run files params messages arrangement).replies =
      State.sent files settings handled arrangement := by
    rw [hrun, Session.after, hreplies]
    rfl
  refine ⟨handled, rest, hmessages, hordinary, ?_, hsent, ?_, ?_⟩
  · rw [hrun]
    exact hending
  · rw [hsent]
    exact State.sent_responds files settings handled arrangement
  · intro before id method params error _ hrefused
    rw [State.listening, State.reached, List.foldl_append]
    exact State.exchange_refused _ hrefused

section Broken

/-- The parameters by which a client begins a session, if it tells nothing about itself. -/
def noCapabilities : Json :=
  .object [("capabilities", .object [])]

/-- A client sends a request with malformed parameters, one with an unknown method, an unknown
    notification and a response, opens a page and asks about it. -/
theorem run_handles_refused :
    let uri : Json := .string "file:///srv/page.html"
    let page : Json := .object [("uri", uri), ("languageId", .string "html"),
      ("version", .integer 1), ("text", .string "\x7b\x7b user \x7d\x7d")]
    let symbols : Json := .object [("textDocument", .object [("uri", uri)])]
    let messages : List Message := [
      .request (.number 1) "textDocument/hover" (.object [("position", .string "nope")]),
      .request (.text "two") "textDocument/rename" .null,
      .notification "textDocument/didSave" .null,
      .response,
      .notification "textDocument/didOpen" (.object [("textDocument", page)]),
      .request (.number 3) "textDocument/documentSymbol" symbols]
    Session.settings? noCapabilities = some {} ∧ (∀ message ∈ messages, ¬ message.AsksForEnd) ∧
      ∃ handled rest, messages = handled ++ rest ∧
        Handles {} {} {} handled rest (Session.run {} noCapabilities messages) := by
  intro uri page symbols messages
  have hsettings : Session.settings? noCapabilities = some {} := by decide +kernel
  have hends : ∀ message ∈ messages, ¬ message.AsksForEnd := by decide
  exact ⟨hsettings, hends, run_handles {} {} hsettings hends⟩

/-- A notification without its parameters ends the session, and the request after it gets no
    response. -/
theorem request_unanswered :
    let messages : List Message :=
      [.notification "textDocument/didOpen" (.object []), .request (.number 1) "textDocument/rename" .null]
    let session := Session.run {} noCapabilities messages
    (∀ message ∈ messages, ¬ message.AsksForEnd) ∧ session.ending = .failed ∧ session.replies = [] := by
  decide +kernel

end Broken

end TemplateAnalysis.Server
