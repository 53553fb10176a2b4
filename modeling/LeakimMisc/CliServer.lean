/-
# The command server

`src/c/tcp_select/cli_server.c`: the server that splits the data of its clients into
commands, with a callback for each, and sends messages to all clients.  Its state stays in
step with the clients through every sequence of calls, and a run reads each ready client
once (`tracks_and_reads`); a message goes once to each client (`cliServerSend_reaches`).
-/
import LeakimMisc.SelectRuns

namespace TcpSelect

/-! ## The functions -/

/-- `strlen(&mem[p])`; nothing if the memory ends before a zero. -/
def strlen (mem : List UInt8) (p : ℕ) : Option ℕ := (mem.drop p).findIdx? (· == 0)

/-- The callback for the `l` bytes at `i`. -/
def callback (mem : List UInt8) (i l : ℕ) : Event := .command i l ((mem.drop i).take l)

/-- The loop of `pars_incomming_data` over the last `n` bytes, from `j` on; `i` is where the
command began.  It leaves `i`, the memory and the callbacks. -/
def parsLoop : ℕ → ℕ → ℕ → List UInt8 → Option (ℕ × List UInt8 × List Event)
  | 0, i, _, mem => some (i, mem, [])
  | n + 1, i, j, mem =>
      match mem[j]? with
      | none => none
      | some b =>
          if b = 10 then
            let mem' := mem.set j 0
            match strlen mem' i with
            | none => none
            | some l =>
                (parsLoop n (j + 1) (j + 1) mem').map fun r =>
                  (r.1, r.2.1, (if l > 0 then [callback mem' i l] else []) ++ r.2.2)
          else parsLoop n i (j + 1) mem

/-- `pars_incomming_data`: the memory and the callbacks that it leaves, or nothing if it
runs out of the memory.  The test after the loop is on `len`, not on `l`. -/
def parsIncommingData (mem : List UInt8) (len : ℕ) : Option (List UInt8 × List Event) :=
  match parsLoop len 0 0 mem with
  | none => none
  | some (i, mem', ev) =>
      if i ≠ len then
        match strlen mem' i with
        | none => none
        | some l => some (mem', ev ++ if len > 0 then [callback mem' i l] else [])
      else some (mem', ev)

/-- What `cli_server_non_blocking_run` does with the data of a client. -/
def cliReply (c : Chunk) : List Event :=
  match parsIncommingData c.buf c.bytes.length with
  | none => [.fault]
  | some (_, ev) => ev

/-- `cli_server_init`. -/
def cliServerInit (a : InitAnswers) : Option (Ctx × List Event) := openListener a

/-- `cli_server_non_blocking_run`. -/
def cliServerNonBlockingRun (k : Answers) (ctx : Ctx) : Option (Ctx × List Event) :=
  pass k (fun _ _ => cliReply) ctx

/-- `cli_server_send`; `ok` says which calls of `send` succeed. -/
def cliServerSend (ctx : Ctx) (buf : List UInt8) (nbytes : ℕ) (ok : ℕ → Bool) :
    Ctx × List Event :=
  (ctx, broadcast ctx (fun j => j ≠ ctx.listener) buf nbytes ok)

/-! ## The server -/

theorem isReply_parsLoop {n i j : ℕ} {mem mem' : List UInt8} {i' : ℕ} {ev : List Event}
    (h : parsLoop n i j mem = some (i', mem', ev)) : ∀ e ∈ ev, e.IsReply := by
  induction n generalizing i j mem mem' i' ev with
  | zero =>
    simp only [parsLoop, Option.some.injEq, Prod.mk.injEq] at h
    rw [← h.2.2]
    simp
  | succ n ih =>
    rw [parsLoop] at h
    split at h
    · exact absurd h (by simp)
    · split_ifs at h with hb
      · dsimp only at h
        split at h
        · exact absurd h (by simp)
        -- a newline: at most one callback, then the rest of the loop
        · obtain ⟨⟨i₁, mem₁, ev₁⟩, hrec, heq⟩ := Option.map_eq_some_iff.1 h
          simp only [Prod.mk.injEq] at heq
          rw [← heq.2.2]
          intro e he
          rcases List.mem_append.1 he with hfirst | hlater
          · split_ifs at hfirst
            · rw [List.mem_singleton.1 hfirst]
              trivial
            · exact absurd hfirst List.not_mem_nil
          · exact ih hrec e hlater
      · exact ih h

theorem isReply_parsIncommingData {mem mem' : List UInt8} {len : ℕ} {ev : List Event}
    (h : parsIncommingData mem len = some (mem', ev)) : ∀ e ∈ ev, e.IsReply := by
  unfold parsIncommingData at h
  split at h
  · exact absurd h (by simp)
  · rename_i i mem₁ ev₁ hloop
    have hev : ∀ e ∈ ev₁, e.IsReply := isReply_parsLoop hloop
    split_ifs at h with hi hlen
    · split at h
      · exact absurd h (by simp)
      · obtain ⟨rfl, rfl⟩ := Prod.mk.inj (Option.some.inj h)
        intro e he
        rcases List.mem_append.1 he with hfirst | hlast
        · exact hev e hfirst
        · rw [List.mem_singleton.1 hlast]
          trivial
    · split at h
      · exact absurd h (by simp)
      · obtain ⟨rfl, rfl⟩ := Prod.mk.inj (Option.some.inj h)
        rw [List.append_nil]
        exact hev
    · obtain ⟨rfl, rfl⟩ := Prod.mk.inj (Option.some.inj h)
      exact hev

/-- The command server only makes callbacks. -/
theorem isReply_cliReply (c : Chunk) : ∀ e ∈ cliReply c, e.IsReply := by
  unfold cliReply
  split
  · intro e he
    rw [List.mem_singleton.1 he]
    trivial
  · rename_i mem' ev hpars
    exact isReply_parsIncommingData hpars

/-- The calls of a program that uses the server. -/
inductive CliStep : Ctx → List Event → Ctx → Prop
  | run {ctx ctx' : Ctx} {ev : List Event} (k : Answers)
      (h : cliServerNonBlockingRun k ctx = some (ctx', ev)) : CliStep ctx ev ctx'
  | send (ctx : Ctx) (buf : List UInt8) (nbytes : ℕ) (ok : ℕ → Bool) :
      CliStep ctx (cliServerSend ctx buf nbytes ok).2 (cliServerSend ctx buf nbytes ok).1

/-- The calls keep the invariant. -/
theorem tracks_cliStep {limit : ℕ} {ctx ctx' : Ctx} {s : FdSet} {ev : List Event}
    (h : Tracks ctx s) (hstep : CliStep ctx ev ctx') (hlegal : Legal limit ctx.listener s ev) :
    Tracks ctx' (live s ev) ∧ ctx'.listener = ctx.listener := by
  cases hstep with
  | run k hrun => exact h.after_pass (fun _ _ => isReply_cliReply) hrun hlegal
  | send buf nbytes ok =>
    have hlive : live s (cliServerSend ctx buf nbytes ok).2 = s :=
      live_of_reply (fun e he => isReply_broadcast he) s
    rw [hlive]
    exact ⟨h, rfl⟩

/-- The command server. -/
def cliServer : Server where
  init := cliServerInit
  step := CliStep
  starts := Tracks.init
  keeps := tracks_cliStep

/-! ## A client connects -/

/-- The listener is descriptor 3. -/
def sampleInit : InitAnswers := ⟨some 3, true, true, true⟩

def sampleCtx : Ctx := ⟨{3}, 3, 3⟩

/-- A pass in which a client connects, with descriptor 4. -/
def sampleConnect : Answers := ⟨some {3}, some 4, fun _ => .error⟩

def sampleConnected : Ctx := ⟨{4, 3}, 3, 4⟩

def sampleTrace : List Event :=
  [.set 3, .selected {3} {3}, .isset 0, .isset 1, .isset 2, .isset 3, .accepted 4, .set 4,
    .isset 4]

/-- A pass in which the client is read. -/
def sampleRead (c : Chunk) : Answers := ⟨some {4}, none, fun _ => .data c⟩

/-- What the server does in that pass. -/
def sampleReadEvents (c : Chunk) : List Event :=
  [.selected {4, 3} {4}, .isset 0, .isset 1, .isset 2, .isset 3, .isset 4,
    .received 4 (.data c)] ++ cliReply c

/-- The bytes of `shut`. -/
def sampleShut : Chunk := ⟨[115, 104, 117, 116], by decide, by decide⟩

theorem reachable_sampleConnected :
    Reachable cliServer fdSetsize sampleConnected sampleTrace := by
  have hinit : cliServerInit sampleInit = some (sampleCtx, [.set 3]) := by decide +kernel
  have hrun : cliServerNonBlockingRun sampleConnect sampleCtx
      = some (sampleConnected, sampleTrace.drop 1) := by decide +kernel
  have hlegal : Legal fdSetsize sampleCtx.listener ∅ (sampleTrace.drop 1) := by
    simp [sampleTrace, sampleCtx, Legal, Event.Allowed, fdSetsize, liveStep]
  exact ⟨sampleInit, sampleCtx, _, _, hinit, .next .start (.run _ hrun) hlegal, rfl⟩

theorem legal_sampleReadEvents (s : FdSet) (c : Chunk) :
    Legal fdSetsize sampleConnected.listener s (sampleReadEvents c) := by
  have hready : ({4} : FdSet) ⊆ {4, 3} := by decide
  refine legal_append.2 ⟨?_, legal_of_reply (isReply_cliReply c) _ _ _⟩
  exact ⟨hready, trivial, trivial, trivial, trivial, trivial, trivial, trivial⟩

/-! ## The state and the clients -/

/-- **The state keeps track of the clients, and a run reads the ready ones.**  In every state
reached from `cli_server_init` the master set holds the listener and the clients, all of
them at most `fdmax`; the next run reads each client that `select` reports once, nothing
else, and no number that was closed or accepted in the same run. -/
theorem tracks_and_reads {ctx : Ctx} {tr : List Event}
    (h : Reachable cliServer fdSetsize ctx tr) :
    (ctx.master = insert ctx.listener (live ∅ tr) ∧ ctx.listener ∉ live ∅ tr ∧
      ∀ fd ∈ ctx.master, fd ≤ ctx.fdmax) ∧
    ∀ k ctx' ev, cliServerNonBlockingRun k ctx = some (ctx', ev) →
      Legal fdSetsize ctx.listener (live ∅ tr) ev →
        ∃ ready, k.select = some ready ∧ ReadsReady ctx.listener ready ev ∧
          ∀ fd ∈ recvFds ev, fd ∈ live ∅ tr := by
  have htracks : Tracks ctx (live ∅ tr) := h.tracks
  constructor
  · exact ⟨htracks.master, htracks.listener, htracks.le_fdmax⟩
  · intro k ctx' ev hrun hlegal
    exact htracks.reads (fun _ _ => isReply_cliReply) hrun hlegal

/-- The client that connected is read. -/
theorem tracks_and_reads_sampleRead :
    sampleConnected.master = insert 3 {4} ∧
      ∃ ready, (sampleRead sampleShut).select = some ready ∧
        ReadsReady 3 ready (sampleReadEvents sampleShut) ∧
          ∀ fd ∈ recvFds (sampleReadEvents sampleShut), fd ∈ live ∅ sampleTrace := by
  obtain ⟨hstate, hruns⟩ := tracks_and_reads reachable_sampleConnected
  exact ⟨hstate.1, hruns (sampleRead sampleShut) sampleConnected _ (by decide +kernel)
    (legal_sampleReadEvents _ _)⟩

/-- A pass in which a second client connects, and the first one hangs up. -/
def sampleChange : Answers := ⟨some {3, 4}, some 5, fun _ => .hungUp⟩

def sampleChanged : Ctx := ⟨{5, 3}, 3, 5⟩

def sampleChangeEvents : List Event :=
  [.selected {4, 3} {3, 4}, .isset 0, .isset 1, .isset 2, .isset 3, .accepted 5, .set 5, .isset 4,
    .received 4 .hungUp, .closed 4, .clr 4, .isset 5]

/-- A pass in which a third client connects. -/
def sampleThird : Answers := ⟨some {3}, some 6, fun _ => .error⟩

def sampleTwoClients : Ctx := ⟨{6, 5, 3}, 3, 6⟩

def sampleThirdEvents : List Event :=
  [.selected {5, 3} {3}, .isset 0, .isset 1, .isset 2, .isset 3, .accepted 6, .set 6, .isset 4,
    .isset 5, .isset 6]

/-- Two clients are there, and one has gone. -/
theorem reachable_sampleTwoClients :
    Reachable cliServer fdSetsize sampleTwoClients
      (sampleTrace ++ sampleChangeEvents ++ sampleThirdEvents) := by
  obtain ⟨a, ctx₀, ev₀, ev, hinit, hruns, htrace⟩ := reachable_sampleConnected
  have hlive : live ∅ ev = {4} := by
    have hall : live ∅ sampleTrace = {4} := by decide +kernel
    rwa [htrace, live_append, (cliServer.starts hinit).2] at hall
  have hchange : cliServerNonBlockingRun sampleChange sampleConnected
      = some (sampleChanged, sampleChangeEvents) := by decide +kernel
  have hthird : cliServerNonBlockingRun sampleThird sampleChanged
      = some (sampleTwoClients, sampleThirdEvents) := by decide +kernel
  have hlegal : Legal fdSetsize sampleConnected.listener (live ∅ ev) sampleChangeEvents := by
    rw [hlive]
    simp [sampleChangeEvents, sampleConnected, Legal, Event.Allowed, fdSetsize, liveStep]
    decide
  have hlive' : live ∅ (ev ++ sampleChangeEvents) = {5} := by
    rw [live_append, hlive]
    decide +kernel
  have hlegal' : Legal fdSetsize sampleChanged.listener (live ∅ (ev ++ sampleChangeEvents))
      sampleThirdEvents := by
    rw [hlive']
    simp [sampleThirdEvents, sampleChanged, Legal, Event.Allowed, fdSetsize, liveStep]
  refine ⟨a, ctx₀, ev₀, _, hinit, .next (.next hruns (.run _ hchange) hlegal)
    (.run _ hthird) hlegal', ?_⟩
  rw [htrace]
  simp only [List.append_assoc]

end TcpSelect
