/-
# The program around the command server

`src/c/tcp_select/cli_server_cli.c`: until a client has sent the command `shutdown`, the program
sends a message to all clients and then lets the server read, again and again.  It returns after
the first round in which the data of a client has that command as a line (`cliMain_ends`), and in
every round the message goes once to each client that is connected when the round begins, and
nothing else is sent (`cliMain_greets`).
-/
import LeakimMisc.CliServerCommands

open Pieces

namespace TcpSelect

/-! ## The program -/

/-- The bytes of a text. -/
def bytesOf (s : String) : List UInt8 := s.toList.map fun c => c.toNat.toUInt8

/-- `cli_server_cmd`; `text` is the string `in`. -/
def cliServerCmd (shutdown : ℕ) (text : List UInt8) : ℕ :=
  if text = bytesOf "shutdown" then shutdown + 1 else shutdown

/-- The callback, if an event is one. -/
def callbackOf (shutdown : ℕ) : Event → ℕ
  | .command _ _ text => cliServerCmd shutdown text
  | _ => shutdown

/-- The callbacks among some events, one after the other. -/
def runCallbacks (shutdown : ℕ) (ev : List Event) : ℕ := ev.foldl callbackOf shutdown

/-- `m`. -/
def unsolicited : List UInt8 := bytesOf "unsolicited event from server to all clients\n"

/-- What the kernel answers in a turn of the loop: to the calls of `send`, and in the pass. -/
structure Round where
  ok : ℕ → Bool
  answers : Answers

/-- Where the program has got to: it goes on, it has returned, or the server has called
`exit`. -/
inductive Ending
  | running
  | returned
  | exited
  deriving DecidableEq

/-- The loop of `main`: what is done in each turn, and how it ends. -/
def cliLoop (shutdown : ℕ) (ctx : Ctx) : List Round → List (List Event) × Ending
  | [] => ([], if shutdown ≠ 0 then .returned else .running)
  | r :: rounds =>
    if shutdown ≠ 0 then ([], .returned)
    else
      let sent := cliServerSend ctx unsolicited unsolicited.length r.ok
      match cliServerNonBlockingRun r.answers sent.1 with
      | none => ([sent.2], .exited)
      | some (ctx', ev) =>
        let rest := cliLoop (runCallbacks shutdown ev) ctx' rounds
        ((sent.2 ++ ev) :: rest.1, rest.2)

/-- `main`: what is done before the loop, in each of its turns, and how it ends. -/
def cliMain (a : InitAnswers) (rounds : List Round) : List Event × List (List Event) × Ending :=
  match cliServerInit a with
  | none => ([], [], .exited)
  | some (ctx, ev) => (ev, cliLoop 0 ctx rounds)

/-! ## One turn -/

/-- The callback with the command `shutdown`. -/
def Event.IsShutdown (e : Event) : Prop := ∃ start len, e = .command start len (bytesOf "shutdown")

/-- The command came in the turn. -/
def Shuts (ev : List Event) : Prop := ∃ e ∈ ev, e.IsShutdown

theorem runCallbacks_eq_zero_iff {shutdown : ℕ} {ev : List Event} :
    runCallbacks shutdown ev = 0 ↔ shutdown = 0 ∧ ¬ Shuts ev := by
  induction ev generalizing shutdown with
  | nil => simp [runCallbacks, Shuts]
  | cons e ev ih =>
    have hcons : Shuts (e :: ev) ↔ e.IsShutdown ∨ Shuts ev := by
      simp only [Shuts, List.mem_cons, or_and_right, exists_or, exists_eq_left]
    have hfold : runCallbacks shutdown (e :: ev) = runCallbacks (callbackOf shutdown e) ev := rfl
    rw [hfold, ih, hcons, not_or, ← and_assoc]
    refine and_congr_left fun _ => ?_
    cases e with
    | command start len text =>
      by_cases htext : text = bytesOf "shutdown"
      · subst htext
        simp [callbackOf, cliServerCmd, Event.IsShutdown]
      · simp [callbackOf, cliServerCmd, Event.IsShutdown, htext]
    | _ => simp [callbackOf, Event.IsShutdown]

section Pass

variable {k : Answers} {reply : Ctx → ℕ → Chunk → List Event} {readFds : FdSet} {ctx : Ctx}
  {e : Event} {i : ℕ}

/-- An event of the loop over the descriptors is one of a visit. -/
theorem exists_visit_of_mem_scan (h : e ∈ (scan k reply readFds i ctx).2) :
    ∃ j ctx', e ∈ (visit k reply readFds j ctx').2 ∧
      (visit k reply readFds j ctx').2 ⊆ (scan k reply readFds i ctx).2 := by
  fun_induction scan k reply readFds i ctx with
  | case1 i ctx hle r rest ih =>
    rcases List.mem_append.mp h with h | h
    · exact ⟨i, ctx, h, List.subset_append_left _ _⟩
    · obtain ⟨j, ctx', hmem, hsub⟩ := ih h
      exact ⟨j, ctx', hmem, fun e he => List.mem_append_right _ (hsub he)⟩
  | case2 i ctx hle => exact absurd h List.not_mem_nil

/-- What a visit puts out replies to data. -/
theorem mem_reply_of_output (hout : e.IsOutput) (h : e ∈ (visit k reply readFds i ctx).2) :
    ∃ c, Event.received i (.data c) ∈ (visit k reply readFds i ctx).2 ∧ e ∈ reply ctx i c := by
  have hstep := visited k reply readFds i ctx
  generalize visit k reply readFds i ctx = r at hstep h
  cases hstep with
  | data c hready hi hk =>
    refine ⟨c, by simp, ?_⟩
    rcases List.mem_cons.mp h with rfl | h
    · exact hout.elim
    rcases List.mem_cons.mp h with rfl | h
    · exact hout.elim
    · exact h
  | _ =>
    simp only [List.mem_cons, List.not_mem_nil, or_false] at h
    rcases h with rfl | rfl | rfl | rfl <;> exact hout.elim

/-- All data that is received is replied to. -/
theorem reply_subset_visit (hreply : ∀ ctx i c, ∀ e ∈ reply ctx i c, e.IsReply) {fd : ℕ}
    {c : Chunk} (h : Event.received fd (.data c) ∈ (visit k reply readFds i ctx).2) :
    reply ctx fd c ⊆ (visit k reply readFds i ctx).2 := by
  have hstep := visited k reply readFds i ctx
  generalize visit k reply readFds i ctx = r at hstep h
  cases hstep with
  | data c' hready hi hk =>
    rcases List.mem_cons.mp h with h | h
    · exact absurd h (by simp)
    rcases List.mem_cons.mp h with h | h
    · obtain ⟨rfl, hc⟩ := Event.received.inj h
      obtain rfl := Recv.data.inj hc
      exact fun e he => List.mem_cons_of_mem _ (List.mem_cons_of_mem _ he)
    · exact absurd (hreply _ _ _ _ h) (by simp [Event.IsReply])
  | closed r' hready hi hr hk =>
    simp only [List.mem_cons, List.not_mem_nil, or_false, reduceCtorEq, false_or,
      Event.received.injEq] at h
    exact absurd h.2.symm (hr c)
  | _ => simp at h

end Pass

/-- The callbacks of the server for one read. -/
theorem cliReply_eq {c : Chunk} {ls : List (List UInt8)} {l : List UInt8}
    (h : c.bytes.dropLast.splitOn 10 = ls ++ [l]) :
    cliReply c = lineCalls 0 ls ++
      [.command (c.bytes.dropLast.length - l.length) (cstr l).length (cstr l)] := by
  have hlen : c.bytes.length = c.bytes.dropLast.length + 1 := by
    have hpos := c.pos
    rw [List.length_dropLast]
    omega
  rw [cliReply, c.buf_eq, hlen, parsIncommingData_eq h]

theorem send_of_mem_lineCalls {i : ℕ} {ls : List (List UInt8)} {e : Event}
    (h : e ∈ lineCalls i ls) : e.send = none := by
  induction ls generalizing i with
  | nil => exact absurd h List.not_mem_nil
  | cons l ls ih =>
    rw [lineCalls] at h
    rcases List.mem_append.mp h with h | h
    · split_ifs at h
      · rw [List.mem_singleton.mp h]
        rfl
      · exact absurd h List.not_mem_nil
    · exact ih h

/-- The server itself sends nothing. -/
theorem send_of_mem_cliReply {c : Chunk} {e : Event} (h : e ∈ cliReply c) : e.send = none := by
  obtain ⟨ls, l, hlines⟩ := exists_splitOn_eq 10 c.bytes.dropLast
  rw [cliReply_eq hlines] at h
  rcases List.mem_append.mp h with h | h
  · exact send_of_mem_lineCalls h
  · rw [List.mem_singleton.mp h]
    rfl

/-- A line of the data, without its last byte and up to its first zero, is the command. -/
def AsksShutdown (c : Chunk) : Prop :=
  ∃ l ∈ c.bytes.dropLast.splitOn 10, cstr l = bytesOf "shutdown"

/-- Data that was received has the command. -/
def Asked (ev : List Event) : Prop := ∃ fd c, .received fd (.data c) ∈ ev ∧ AsksShutdown c

theorem shuts_iff_mem_callbacks {ev : List Event} :
    Shuts ev ↔ bytesOf "shutdown" ∈ (ev.filterMap Event.callback).map Prod.fst := by
  simp only [List.mem_map, List.mem_filterMap]
  constructor
  · rintro ⟨e, he, start, len, rfl⟩
    exact ⟨_, ⟨_, he, rfl⟩, rfl⟩
  · rintro ⟨⟨text, len⟩, ⟨e, he, hcall⟩, rfl⟩
    cases e with
    | command start len' text' =>
      obtain ⟨rfl, rfl⟩ := Prod.mk.inj (Option.some.inj hcall)
      exact ⟨_, he, start, len', rfl⟩
    | _ => exact absurd hcall (by simp [Event.callback])

theorem shuts_cliReply (c : Chunk) : Shuts (cliReply c) ↔ AsksShutdown c := by
  obtain ⟨ls, l, hlines⟩ := exists_splitOn_eq 10 c.bytes.dropLast
  have hne : bytesOf "shutdown" ≠ [] := by decide
  have htexts : (((ls.map cstr).filter fun t => t ≠ []) ++ [cstr l]).map
      (Prod.fst ∘ withLength) = ((ls.map cstr).filter fun t => t ≠ []) ++ [cstr l] :=
    List.map_id _
  rw [shuts_iff_mem_callbacks, callbacks_cliReply hlines, List.map_map, htexts, AsksShutdown,
    hlines]
  simp [hne, or_and_right, exists_or, eq_comm]

/-- **A run gets the command** exactly if it reads data with it. -/
theorem shuts_run_iff {k : Answers} {ctx ctx' : Ctx} {ev : List Event}
    (h : cliServerNonBlockingRun k ctx = some (ctx', ev)) : Shuts ev ↔ Asked ev := by
  obtain ⟨ready, -, heq⟩ := Option.map_eq_some_iff.mp h
  obtain ⟨-, rfl⟩ := Prod.mk.inj heq
  constructor
  · rintro ⟨e, he, hshut⟩
    have hout : e.IsOutput := by
      obtain ⟨start, len, rfl⟩ := hshut
      trivial
    rcases List.mem_cons.mp he with rfl | he
    · exact hout.elim
    obtain ⟨i, ctx', hmem, hsub⟩ := exists_visit_of_mem_scan he
    obtain ⟨c, hreceived, hreply⟩ := mem_reply_of_output hout hmem
    exact ⟨i, c, List.mem_cons_of_mem _ (hsub hreceived), (shuts_cliReply c).mp ⟨e, hreply, hshut⟩⟩
  · rintro ⟨fd, c, he, hasks⟩
    have he := (List.mem_cons.mp he).resolve_left (by simp)
    obtain ⟨i, ctx', hmem, hsub⟩ := exists_visit_of_mem_scan he
    have hreplied := reply_subset_visit (fun _ _ => isReply_cliReply) hmem
    obtain ⟨e, hreply, hshut⟩ := (shuts_cliReply c).mpr hasks
    exact ⟨e, List.mem_cons_of_mem _ (hsub (hreplied hreply)), hshut⟩

/-- A run sends nothing. -/
theorem sends_run {k : Answers} {ctx ctx' : Ctx} {ev : List Event}
    (h : cliServerNonBlockingRun k ctx = some (ctx', ev)) : sends ev = [] := by
  obtain ⟨ready, -, heq⟩ := Option.map_eq_some_iff.mp h
  obtain ⟨-, rfl⟩ := Prod.mk.inj heq
  refine List.filterMap_eq_nil_iff.mpr fun e he => ?_
  rcases List.mem_cons.mp he with rfl | he
  · rfl
  obtain ⟨i, ctx', hmem, -⟩ := exists_visit_of_mem_scan he
  by_cases hout : e.IsOutput
  · obtain ⟨c, -, hreply⟩ := mem_reply_of_output hout hmem
    exact send_of_mem_cliReply hreply
  · cases e with
    | sent fd buf nbytes ok => exact absurd trivial hout
    | _ => rfl

/-- The loop over `send` reads nothing. -/
theorem not_asked_cliServerSend (ctx : Ctx) (buf : List UInt8) (nbytes : ℕ) (ok : ℕ → Bool) :
    ¬ Asked (cliServerSend ctx buf nbytes ok).2 := by
  rintro ⟨fd, c, he, -⟩
  rcases mem_broadcast he with ⟨j, hj⟩ | ⟨j, b, hj⟩ <;> exact absurd hj (by simp)

theorem asked_append {ev ev' : List Event} : Asked (ev ++ ev') ↔ Asked ev ∨ Asked ev' := by
  simp only [Asked, List.mem_append, or_and_right, exists_or]

/-! ## The rounds -/

variable {ctx : Ctx} {rounds : List Round}

/-- **A turn of the loop**, if the command has not come before: it is the last one if the server
exits in it, or if the command comes. -/
theorem cliLoop_cons (r : Round) (ctx : Ctx) (rounds : List Round) :
    (cliServerNonBlockingRun r.answers ctx = none ∧
        cliLoop 0 ctx (r :: rounds) =
          ([(cliServerSend ctx unsolicited unsolicited.length r.ok).2], .exited)) ∨
      ∃ ctx' ev, cliServerNonBlockingRun r.answers ctx = some (ctx', ev) ∧
        cliLoop 0 ctx (r :: rounds) =
          (((cliServerSend ctx unsolicited unsolicited.length r.ok).2 ++ ev) ::
            (cliLoop (runCallbacks 0 ev) ctx' rounds).1,
          (cliLoop (runCallbacks 0 ev) ctx' rounds).2) := by
  have hctx : (cliServerSend ctx unsolicited unsolicited.length r.ok).1 = ctx := rfl
  cases hrun : cliServerNonBlockingRun r.answers ctx with
  | none =>
    left
    rw [cliLoop, if_neg (by simp)]
    simp [hctx, hrun]
  | some out =>
    right
    refine ⟨out.1, out.2, rfl, ?_⟩
    rw [cliLoop, if_neg (by simp)]
    simp [hctx, hrun]

/-- After the command the loop is left. -/
theorem cliLoop_of_ne_zero {shutdown : ℕ} (h : shutdown ≠ 0) (ctx : Ctx) (rounds : List Round) :
    cliLoop shutdown ctx rounds = ([], .returned) := by
  cases rounds with
  | nil => rw [cliLoop, if_pos h]
  | cons r rounds => rw [cliLoop, if_pos h]

/-- The loop ends with the round in which the command comes. -/
theorem cliLoop_ends (ctx : Ctx) (rounds : List Round) :
    (∀ ev ∈ (cliLoop 0 ctx rounds).1.dropLast, ¬ Asked ev) ∧
      ((cliLoop 0 ctx rounds).2 = .returned ↔
        ∃ ev ∈ (cliLoop 0 ctx rounds).1.getLast?, Asked ev) := by
  induction rounds generalizing ctx with
  | nil => simp [cliLoop]
  | cons r rounds ih =>
    have hsend := not_asked_cliServerSend ctx unsolicited unsolicited.length r.ok
    rcases cliLoop_cons r ctx rounds with ⟨-, hloop⟩ | ⟨ctx', ev, hrun, hloop⟩
    · rw [hloop]
      simp [hsend]
    · rw [hloop]
      have hround : Asked ((cliServerSend ctx unsolicited unsolicited.length r.ok).2 ++ ev) ↔
          Shuts ev := by
        rw [asked_append, shuts_run_iff hrun, or_iff_right hsend]
      by_cases hshut : Shuts ev
      · have hne : runCallbacks 0 ev ≠ 0 := fun h => (runCallbacks_eq_zero_iff.mp h).2 hshut
        rw [cliLoop_of_ne_zero hne]
        simp [hround, hshut]
      · have hzero : runCallbacks 0 ev = 0 := runCallbacks_eq_zero_iff.mpr ⟨rfl, hshut⟩
        have hfirst := hround.not.mpr hshut
        rw [hzero]
        obtain ⟨hbefore, hends⟩ := ih ctx'
        cases hlater : (cliLoop 0 ctx' rounds).1 with
        | nil =>
          rw [hlater] at hends
          simp only [List.getLast?_nil, Option.mem_def, reduceCtorEq, false_and, exists_false,
            iff_false] at hends
          simp [hends, hfirst]
        | cons ev' evs =>
          rw [hlater] at hbefore hends
          rw [List.dropLast_cons_cons, List.getLast?_cons_cons]
          refine ⟨fun e he => ?_, hends⟩
          rcases List.mem_cons.mp he with rfl | he
          · exact hfirst
          · exact hbefore e he

/-- In each round of the loop the message goes once to each client, and nothing else is sent. -/
theorem cliLoop_greets {ctx : Ctx} {s : FdSet} (h : Tracks ctx s) (rounds : List Round)
    (hlegal : Legal fdSetsize ctx.listener s (cliLoop 0 ctx rounds).1.flatten) {n : ℕ}
    {ev : List Event} (hev : (cliLoop 0 ctx rounds).1[n]? = some ev) :
    ∃ fds : List ℕ, fds.Nodup ∧
      (∀ fd, fd ∈ fds ↔ fd ∈ live s ((cliLoop 0 ctx rounds).1.take n).flatten) ∧
      sends ev = fds.map fun fd => (fd, unsolicited, unsolicited.length) := by
  induction rounds generalizing ctx s n with
  | nil => simp [cliLoop] at hev
  | cons r rounds ih =>
    -- the message of the first round
    have hgreet : ∃ fds : List ℕ, fds.Nodup ∧ (∀ fd, fd ∈ fds ↔ fd ∈ s) ∧
        sends (cliServerSend ctx unsolicited unsolicited.length r.ok).2
          = fds.map fun fd => (fd, unsolicited, unsolicited.length) := by
      obtain ⟨fds, hnodup, hmem, hsends⟩ := exists_sends_broadcast h
        (fun j => decide (j ≠ ctx.listener)) (by simp) unsolicited unsolicited.length r.ok
      refine ⟨fds, hnodup, fun fd => ?_, hsends⟩
      rw [hmem, and_iff_left_iff_imp]
      intro hfd
      simpa using ne_of_mem_of_not_mem hfd h.listener
    rcases cliLoop_cons r ctx rounds with ⟨-, hloop⟩ | ⟨ctx', out, hrun, hloop⟩
    · rw [hloop] at hev ⊢
      obtain ⟨rfl, rfl⟩ : n = 0 ∧ ev = (cliServerSend ctx unsolicited unsolicited.length r.ok).2 := by
        cases n with
        | zero => exact ⟨rfl, by simpa using hev.symm⟩
        | succ n => simp at hev
      exact hgreet
    · rw [hloop] at hev hlegal ⊢
      cases n with
      | zero =>
        obtain rfl : _ = ev := Option.some.inj hev
        rw [sends, List.filterMap_append, ← sends, ← sends, sends_run hrun, List.append_nil]
        exact hgreet
      | succ n =>
        by_cases hshut : runCallbacks 0 out = 0
        · rw [hshut] at hev hlegal ⊢
          obtain ⟨hround, hlater⟩ := legal_append.mp hlegal
          obtain ⟨-, hpass⟩ := legal_append.mp hround
          have hlive : live s (cliServerSend ctx unsolicited unsolicited.length r.ok).2 = s :=
            live_of_reply (fun e he => isReply_broadcast he) s
          rw [hlive] at hpass
          obtain ⟨htracks, hlistener⟩ := tracks_cliStep h (.run r.answers hrun) hpass
          rw [live_append, hlive, ← hlistener] at hlater
          rw [List.take_succ_cons, List.flatten_cons, live_append, live_append, hlive]
          exact ih htracks hlater hev
        · rw [cliLoop_of_ne_zero hshut] at hev
          simp at hev

/-- The data of `echo shutdown`, in one piece, has the command. -/
example : AsksShutdown sampleWhole := ⟨sampleCommand, by decide +kernel, by decide +kernel⟩

/-- A client connects in the first round, and in the second one it sends the command. -/
def sampleRounds : List Round :=
  [⟨fun _ => true, sampleConnect⟩, ⟨fun _ => true, sampleRead sampleWhole⟩]

/-- What is done in the first round. -/
def sampleFirst : List Event :=
  [.isset 0, .isset 1, .isset 2, .isset 3] ++ sampleTrace.drop 1

/-- What is done in the second round. -/
def sampleSecond : List Event :=
  [.isset 0, .isset 1, .isset 2, .isset 3, .isset 4, .sent 4 unsolicited unsolicited.length true] ++
    sampleReadEvents sampleWhole

theorem cliMain_sampleRounds :
    (cliMain sampleInit sampleRounds).2 = ([sampleFirst, sampleSecond], .returned) := by
  decide +kernel

end TcpSelect
