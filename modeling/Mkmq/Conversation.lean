import Mkmq.HandleFrame

/-!
# A client and the broker over one connection

A client sends requests without waiting for the responses to earlier ones; both streams arrive
in pieces and may break off.  The client takes frames off what it receives by the same rules as
the broker (`recv_frame` of `src/tools/kafka_bench_client.cpp`) and knows a response by nothing
but its place and the id in it.
-/

namespace Mkmq

open ByteCodec Connection

/-- A request that gets a response; nothing else than a produce with `acks` 0 gets none. -/
def expectsReply (payload : Bytes) : Bool :=
  match decode readRequest payload with
  | .ok (_, request) => wantsReply request
  | .error _ => true

/-- What the handler may do with a frame, under the configuration of the time. -/
def BrokerHandles (payload : Bytes) (outcome : FrameOutcome) : Prop :=
  ∃ config, HandlesFrame config payload outcome

/-- `frame` is a response to `payload`, and passes the client's check for it. -/
structure RespondsTo (payload frame : Bytes) : Prop where
  handled : BrokerHandles payload (.answered (some (sized frame)))
  correlated : ∃ header request, decode readRequest payload = .ok (header, request) ∧
    BenchClient.expectCorrelation (sized frame) header.correlationId = .ok ()

theorem expectsReply_of_read {payload : Bytes} {header : RequestHeader} {request : Option Request}
    (h : decode readRequest payload = .ok (header, request)) :
    expectsReply payload = wantsReply request := by
  rw [expectsReply, h]

/-- The frames behind the answers, each with its request. -/
theorem responses_of_answers {requests : List Bytes} {answers : List (Option Bytes)}
    (h : List.Forall₂ (fun payload answer => BrokerHandles payload (.answered answer)) requests
      answers) (hlength : ∀ answer ∈ answers, ∀ frame ∈ answer, frame.length < 2 ^ 31) :
    ∃ frames, List.Forall₂ RespondsTo (requests.filter expectsReply) frames ∧
      replies answers = frames.flatMap sized ∧ ∀ frame ∈ frames, frame.length < 2 ^ 31 := by
  induction h with
  | nil => exact ⟨[], .nil, rfl, fun _ hframe => nomatch hframe⟩
  | cons hhandled _ ih =>
    next payload answer requests answers =>
    obtain ⟨frames, hframes, hreplies, hshort⟩ :=
      ih fun answer hanswer => hlength answer (List.mem_cons_of_mem _ hanswer)
    obtain ⟨config, hconfig⟩ := hhandled
    obtain ⟨header, request, hread, hanswered⟩ := hconfig.answered
    have hexpects := expectsReply_of_read hread
    cases hwants : wantsReply request with
    | false =>
      rw [hwants, AnsweredWith, if_neg Bool.false_ne_true] at hanswered
      rw [hwants] at hexpects
      subst hanswered
      refine ⟨frames, ?_, hreplies, hshort⟩
      rwa [List.filter_cons_of_neg (by rw [hexpects]; exact Bool.false_ne_true)]
    | true =>
      rw [hwants, AnsweredWith, if_pos rfl] at hanswered
      obtain ⟨body, frame, rfl, hframe⟩ := hanswered
      have hframelength := hlength _ List.mem_cons_self frame rfl
      obtain ⟨contents, rfl, hpos, hcorrelated⟩ := makeResponseFrame_sized hframe hframelength
      rw [hwants] at hexpects
      refine ⟨contents :: frames, ?_, ?_, ?_⟩
      · rw [List.filter_cons_of_pos hexpects]
        exact .cons ⟨⟨config, hconfig⟩, header, request, hread, hcorrelated⟩ hframes
      · rw [List.flatMap_cons, ← hreplies]
        rfl
      · refine List.forall_mem_cons.mpr ⟨?_, hshort⟩
        rw [sized, List.length_append] at hframelength
        omega

/-- **Responses come in the order of the requests, with their ids.**  Whatever the client sends
    without waiting, whatever arrives of it, and however far the responses get: the frames that
    the client takes off its input are the responses to the first requests that get one at all,
    one for each and in their order, and each passes the client's check of the id. -/
theorem pipelined_requests_answered {c : Connection} (h : Reached BrokerHandles c)
    {sent : List Bytes} (hsent : ∀ payload ∈ sent, payload.length < 2 ^ 31)
    (hreceived : c.received <+: sent.flatMap sized)
    (hanswers : ∀ answer ∈ c.answers, ∀ frame ∈ answer, frame.length < 2 ^ 31)
    {got rest : Bytes} (hgot : got <+: c.out) {frames : List Bytes}
    (hframes : Framing.Cuts nextFrame got frames rest) :
    ∃ served, served <+: sent.filter expectsReply ∧ List.Forall₂ RespondsTo served frames := by
  have hserved := h.served
  obtain ⟨left, hcuts⟩ := hserved.cuts
  have hrequests : c.requests <+: sent :=
    hcuts.isPrefix_of_written nextFrame_stable nextFrame_nil
      (fun payload hpayload => nextFrame_sized_or (hsent payload hpayload)) hreceived
  obtain ⟨responses, hresponses, hreplies, hshort⟩ :=
    responses_of_answers hserved.answered hanswers
  have hout : got <+: responses.flatMap sized := hreplies ▸ hgot.trans hserved.out
  have htaken : frames <+: responses :=
    hframes.isPrefix_of_written nextFrame_stable nextFrame_nil
      (fun frame hframe => nextFrame_sized_or (hshort frame hframe)) hout
  have hfirst : ((c.requests.take c.answers.length).filter expectsReply) <+:
      sent.filter expectsReply :=
    ((List.take_prefix _ _).trans hrequests).filter _
  have hpairs := List.forall₂_take frames.length hresponses
  rw [← List.prefix_iff_eq_take.mp htaken] at hpairs
  exact ⟨_, (List.take_prefix frames.length _).trans hfirst, hpairs⟩

/-- An `ApiVersions` request and what it is answered with, and a produce with `acks` 0. -/
def versionsRequest (id : UInt8) : Bytes := [0, 18, 0, 3, 0, 0, 0, id, 255, 255, 0]

def versionsFrame (id : UInt8) : Bytes :=
  [0, 0, 0, id, 0, 0, 6, 0, 18, 0, 0, 0, 3, 0, 0, 3, 0, 9, 0, 9, 0, 0, 0, 0, 3, 0, 9, 0, 0, 1, 0, 4,
    0, 12, 0, 0, 2, 0, 6, 0, 6, 0, 0, 0, 0, 0, 0]

def quietProduce : Bytes := [0, 0, 0, 9, 0, 0, 0, 8, 255, 255, 0, 0, 0, 0, 0, 0, 0, 0, 1, 0]

def threeRequests : List (Bytes × FrameOutcome) :=
  [(versionsRequest 7, .answered (some (sized (versionsFrame 7)))), (quietProduce, .answered none),
    (versionsRequest 9, .answered (some (sized (versionsFrame 9))))]

theorem handlesFrame_of_run {config : BrokerConfig} {payload : Bytes} {task : FrameTask}
    (h : handleFrame config payload = .ok task) (results : List (Option CallResult))
    {outcome : FrameOutcome} (hrun : task.run results = some outcome) :
    HandlesFrame config payload outcome := by
  rw [HandlesFrame, h]
  exact ⟨results, hrun⟩

/-- All three arrive at once, and the last response is cut off. -/
def threeServed : List Event :=
  [.receive (threeRequests.flatMap fun request => sized request.1),
    .turn, .read, .read, .handled (.answered (some (sized (versionsFrame 7)))), .written,
    .turn, .read, .read, .handled (.answered none),
    .turn, .read, .read, .handled (.answered (some (sized (versionsFrame 9)))), .writeFails 5]

theorem pipelined_requests_answered_three :
    ∃ c, Transition.guardedRun step
        (Handled fun payload outcome => (payload, outcome) ∈ threeRequests) {} threeServed =
          some c ∧
      Framing.Cuts nextFrame c.out [versionsFrame 7] [0, 0, 0, 47, 0] ∧
      ∃ served, served <+: (threeRequests.map Prod.fst).filter expectsReply ∧
        List.Forall₂ RespondsTo served [versionsFrame 7] := by
  have hruns : (Transition.guardedRun step
      (Handled fun payload outcome => (payload, outcome) ∈ threeRequests) {} threeServed).map
        (fun c => (c.received, c.answers, c.out)) =
      some (threeRequests.flatMap (fun request => sized request.1),
        [some (sized (versionsFrame 7)), none, some (sized (versionsFrame 9))],
        sized (versionsFrame 7) ++ [0, 0, 0, 47, 0]) := by decide +kernel
  obtain ⟨c, hc, hends⟩ := Option.map_eq_some_iff.mp hruns
  obtain ⟨hreceived, hends⟩ := Prod.mk.inj hends
  obtain ⟨hanswers, hout⟩ := Prod.mk.inj hends
  have hhandles : ∀ request ∈ threeRequests, BrokerHandles request.1 request.2 := by
    intro request hrequest
    simp only [threeRequests, List.mem_cons, List.not_mem_nil, or_false] at hrequest
    rcases hrequest with rfl | rfl | rfl
    · exact ⟨{}, handlesFrame_of_run rfl [] rfl⟩
    · exact ⟨{}, handlesFrame_of_run rfl [] rfl⟩
    · exact ⟨{}, handlesFrame_of_run rfl [] rfl⟩
  have hreached : Reached BrokerHandles c := by
    refine Transition.Reachable.mono (fun c e hguard => ?_)
      (Transition.Reachable.of_guardedRun (.start rfl) threeServed hc)
    cases e with
    | handled outcome => exact fun frame hframe => hhandles (frame, outcome) (hguard frame hframe)
    | _ => trivial
  have hcuts : Framing.Cuts nextFrame c.out [versionsFrame 7] [0, 0, 0, 47, 0] := by
    rw [hout]
    exact .item (nextFrame_sized ⟨by decide, by decide⟩ _) (.done _)
  have hall : c.received = (threeRequests.map Prod.fst).flatMap sized := by
    rw [hreceived, List.flatMap_map]
  refine ⟨c, hc, hcuts, pipelined_requests_answered hreached (by decide +kernel)
    (hall ▸ List.prefix_rfl) ?_ List.prefix_rfl hcuts⟩
  rw [hanswers]
  decide +kernel

end Mkmq
