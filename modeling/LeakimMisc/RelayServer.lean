/-
# The relay server

`src/c/tcp_select/server.c`: the server that sends what a client sends to all other
clients.  After each `recv` it sends the data once to each other client that is connected at
that moment, also to one that was accepted in the same pass, and to nobody else
(`relays_of_reachable`).  The data is not what was received: its last byte is zero
(`relayed_eq_iff`).
-/
import LeakimMisc.ListPieces
import LeakimMisc.SelectRuns

open Pieces

namespace TcpSelect

/-! ## The functions -/

/-- What `main` does with the data of a client; `ok` says which calls of `send` succeed. -/
def relayReply (ok : ℕ → ℕ → Bool) (ctx : Ctx) (i : ℕ) (c : Chunk) : List Event :=
  broadcast ctx (fun j => j ≠ ctx.listener && j ≠ i) c.buf c.bytes.length (ok i)

/-- `main`, up to its loop. -/
def mainInit (a : InitAnswers) : Option (Ctx × List Event) := openListener a

/-- The loop of `main`, once. -/
def mainPass (k : Answers) (ok : ℕ → ℕ → Bool) (ctx : Ctx) : Option (Ctx × List Event) :=
  pass k (relayReply ok) ctx

theorem isReply_relayReply (ok : ℕ → ℕ → Bool) (ctx : Ctx) (i : ℕ) (c : Chunk) :
    ∀ e ∈ relayReply ok ctx i c, e.IsReply := fun _ he => isReply_broadcast he

/-- The relay server. -/
def relayServer : Server where
  init := mainInit
  step := fun ctx ev ctx' => ∃ k ok, mainPass k ok ctx = some (ctx', ev)
  starts := Tracks.init
  keeps := by
    rintro limit ctx s ev ctx' h ⟨k, ok, hpass⟩ hlegal
    exact h.after_pass (isReply_relayReply ok) hpass hlegal

/-! ## Two clients -/

/-- The listener is descriptor 3. -/
def relayInit : InitAnswers := ⟨some 3, true, true, true⟩

/-- A pass in which a client connects. -/
def relayConnect (fd : ℕ) : Answers := ⟨some {3}, some fd, fun _ => .error⟩

/-- The first client connects, with descriptor 4. -/
def relayFirst : List Event :=
  [.selected {3} {3}, .isset 0, .isset 1, .isset 2, .isset 3, .accepted 4, .set 4, .isset 4]

/-- The second client connects, with descriptor 5. -/
def relaySecond : List Event :=
  [.selected {4, 3} {3}, .isset 0, .isset 1, .isset 2, .isset 3, .accepted 5, .set 5,
    .isset 4, .isset 5]

def relayConnected : Ctx := ⟨{5, 4, 3}, 3, 5⟩

def relayTrace : List Event := [.set 3] ++ (([] ++ relayFirst) ++ relaySecond)

/-- A pass in which the first client is read. -/
def relayRead (c : Chunk) : Answers := ⟨some {4}, none, fun _ => .data c⟩

/-- What the server does in that pass, if every `send` succeeds. -/
def relayReadEvents (c : Chunk) : List Event :=
  [.selected {5, 4, 3} {4}, .isset 0, .isset 1, .isset 2, .isset 3, .isset 4,
    .received 4 (.data c)] ++ (relayReply (fun _ _ => true) relayConnected 4 c ++ [.isset 5])

/-- The bytes of `hi`. -/
def relayHi : Chunk := ⟨[104, 105], by decide, by decide⟩

/-- The bytes of `hi`, ended by a zero. -/
def relayHiZero : Chunk := ⟨[104, 105, 0], by decide, by decide⟩

theorem reachable_relayConnected : Reachable relayServer fdSetsize relayConnected relayTrace := by
  have hinit : mainInit relayInit = some (⟨{3}, 3, 3⟩, [.set 3]) := by decide +kernel
  have hfirst : mainPass (relayConnect 4) (fun _ _ => true) ⟨{3}, 3, 3⟩
      = some (⟨{4, 3}, 3, 4⟩, relayFirst) := by decide +kernel
  have hsecond : mainPass (relayConnect 5) (fun _ _ => true) ⟨{4, 3}, 3, 4⟩
      = some (relayConnected, relaySecond) := by decide +kernel
  have hlegal₁ : Legal fdSetsize 3 ∅ relayFirst := by
    simp [relayFirst, Legal, Event.Allowed, fdSetsize, liveStep]
  have hlegal₂ : Legal fdSetsize 3 (live ∅ ([] ++ relayFirst)) relaySecond := by
    simp [relayFirst, relaySecond, Legal, Event.Allowed, fdSetsize, liveStep]
  exact ⟨relayInit, _, _, _, hinit,
    .next (.next .start ⟨_, _, hfirst⟩ hlegal₁) ⟨_, _, hsecond⟩ hlegal₂, rfl⟩

theorem legal_relayReadEvents (s : FdSet) (c : Chunk) :
    Legal fdSetsize relayConnected.listener s (relayReadEvents c) := by
  have hready : ({4} : FdSet) ⊆ {5, 4, 3} := by decide
  refine legal_append.2 ⟨?_, legal_append.2 ⟨?_, ?_⟩⟩
  · exact ⟨hready, trivial, trivial, trivial, trivial, trivial, trivial, trivial⟩
  · exact legal_of_reply (isReply_relayReply _ _ _ _) _ _ _
  · exact ⟨trivial, trivial⟩

/-! ## Who is served -/

/-- What is sent after a `recv` on `i`, with the clients `s`: the data, once to each other
client; nothing if there is no data. -/
def Relays (s : FdSet) (i : ℕ) : Recv → List (ℕ × List UInt8 × ℕ) → Prop
  | .data c, block => ∃ fds : List ℕ, fds.Nodup ∧ (∀ fd, fd ∈ fds ↔ fd ∈ s ∧ fd ≠ i) ∧
      block = fds.map fun fd => (fd, c.buf, c.bytes.length)
  | _, block => block = []

theorem sends_relayReply {ctx : Ctx} {s : FdSet} (h : Tracks ctx s) (ok : ℕ → ℕ → Bool)
    (i : ℕ) (c : Chunk) : Relays s i (.data c) (sends (relayReply ok ctx i c)) := by
  obtain ⟨fds, hnodup, hmem, hsends⟩ := exists_sends_broadcast h
    (fun j => j ≠ ctx.listener && j ≠ i) (by simp) c.buf c.bytes.length (ok i)
  refine ⟨fds, hnodup, ?_, hsends⟩
  intro fd
  rw [hmem]
  constructor
  · rintro ⟨hfd, hwanted⟩
    exact ⟨hfd, by simp at hwanted; exact hwanted.2⟩
  · rintro ⟨hfd, hne⟩
    have hlistener : fd ≠ ctx.listener := ne_of_mem_of_not_mem hfd h.listener
    exact ⟨hfd, by simp [hlistener, hne]⟩

theorem send_of_not_output {e : Event} (h : ¬ e.IsOutput) : e.send = none := by
  cases e <;> first | rfl | exact absurd trivial h

/-- The bytes of a call of `send`, if it is to `d`. -/
def bytesTo (d : ℕ) (x : ℕ × List UInt8 × ℕ) : Option (List UInt8) :=
  if x.1 = d then some (x.2.1.take x.2.2) else none

/-- The bytes of a `send` to `d`. -/
def Event.sentTo (d : ℕ) (e : Event) : Option (List UInt8) := e.send.bind (bytesTo d)

/-- **What `d` is sent of the data of `i`**. -/
def relayed (i d : ℕ) (ev : List Event) : List UInt8 :=
  (repliesTo (Event.sentTo d) i ev).flatten

/-- Another client is sent the data, with its last byte zero. -/
theorem sentTo_relayReply {ctx : Ctx} {s : FdSet} (h : Tracks ctx s) (ok : ℕ → ℕ → Bool)
    {i d : ℕ} (hd : d ∈ s) (hid : d ≠ i) (c : Chunk) :
    (relayReply ok ctx i c).filterMap (Event.sentTo d) = [c.buf] := by
  obtain ⟨fds, hnodup, hmem, hsends⟩ := sends_relayReply h ok i c
  have htake : c.buf.take c.bytes.length = c.buf := by
    rw [← c.length_buf, List.take_length]
  calc (relayReply ok ctx i c).filterMap (Event.sentTo d)
      = (sends (relayReply ok ctx i c)).filterMap (bytesTo d) := List.filterMap_filterMap.symm
    _ = fds.filterMap fun fd => if fd = d then some c.buf else none := by
        rw [hsends, List.filterMap_map]
        congr 1
        funext fd
        show (if fd = d then some (c.buf.take c.bytes.length) else none) = _
        rw [htake]
    _ = [c.buf] := filterMap_nodup hnodup ((hmem d).2 ⟨hd, hid⟩) c.buf

/-- While `d` stays connected, it is sent all data of `i`, with the last byte of each chunk
zero. -/
theorem relayed_eq {limit : ℕ} {ctx ctx' : Ctx} {s : FdSet} {ev : List Event}
    (h : Tracks ctx s) (hruns : Runs relayServer limit ctx s ev ctx') {i d : ℕ} (hid : d ≠ i)
    (hd : d ∈ s) (hstay : Event.closed d ∉ ev) :
    relayed i d ev = (chunks i ev).flatMap Chunk.buf := by
  have hf : ∀ e, ¬ Event.IsOutput e → e.sentTo d = none := by
    intro e he
    rw [Event.sentTo, send_of_not_output he]
    rfl
  have heach : EachRecv (Event.sentTo d)
      (fun s i r block => ∀ c, r = .data c → d ∈ s → d ≠ i → block = [c.buf]) s ev := by
    apply hruns.eachRecv _ h
    rintro ctx s ev ctx' hs ⟨k, ok, hpass⟩ hlegal
    refine hs.eachRecv_pass hf (isReply_relayReply ok) ?_ ?_ hpass hlegal
    · rintro ctx s i c hs c' heq hd hid
      rw [← Recv.data.inj heq]
      exact sentTo_relayReply hs ok hd hid c
    · rintro s i r hr c rfl
      exact absurd rfl (hr c)
  -- `d` is a client at every `recv`
  have hblocks : repliesTo (Event.sentTo d) i ev
      = (chunks i ev).flatMap fun c => [c.buf] := by
    apply heach.repliesTo_eq (fun s => d ∈ s) hd
    · intro e he s hs
      exact mem_liveStep hs (ne_of_mem_of_not_mem he hstay)
    · intro s c block hs hblock
      exact hblock c rfl hs hid
  rw [relayed, hblocks, ← List.map_eq_flatMap, ← List.flatMap_def]

/-- **When the data arrives unchanged.**  In any sequence of passes, from any reachable
state, while `d` stays connected: `d` is sent the stream of the client `i` as it is exactly
if each `recv` ends with a zero byte. -/
theorem relayed_eq_iff {ctx ctx' : Ctx} {tr ev : List Event}
    (h : Reachable relayServer fdSetsize ctx tr)
    (hruns : Runs relayServer fdSetsize ctx (live ∅ tr) ev ctx') {i d : ℕ} (hid : d ≠ i)
    (hd : d ∈ live ∅ tr) (hstay : Event.closed d ∉ ev) :
    relayed i d ev = (chunks i ev).flatMap Chunk.bytes ↔
      ∀ c ∈ chunks i ev, c.bytes.getLast? = some 0 := by
  rw [relayed_eq h.tracks hruns hid hd hstay]
  have hbuf : ∀ c : Chunk, c.buf = c.bytes ↔ c.bytes.getLast? = some 0 := by
    intro c
    obtain ⟨init, b, hbytes⟩ : ∃ init b, c.bytes = init ++ [b] :=
      ⟨_, _, (List.dropLast_append_getLast c.bytes_ne_nil).symm⟩
    rw [c.buf_eq, hbytes, List.dropLast_concat, List.getLast?_concat, List.append_cancel_left_eq,
      List.singleton_inj, Option.some.injEq]
    exact eq_comm
  constructor
  · intro heq c hc
    exact (hbuf c).1 (eq_of_flatMap_eq (fun c _ => c.length_buf.le) heq c hc)
  · intro hzero
    exact List.flatMap_congr fun c hc => (hbuf c).2 (hzero c hc)

/-- Data that ends with a zero arrives unchanged. -/
theorem relayed_relayHiZero :
    relayed 4 5 (relayReadEvents relayHiZero) = [104, 105, 0] := by
  have hpass : mainPass (relayRead relayHiZero) (fun _ _ => true) relayConnected
      = some (relayConnected, relayReadEvents relayHiZero) := by decide +kernel
  have hruns : Runs relayServer fdSetsize relayConnected (live ∅ relayTrace)
      ([] ++ relayReadEvents relayHiZero) relayConnected :=
    .next .start ⟨_, _, hpass⟩ (legal_relayReadEvents _ _)
  exact (relayed_eq_iff reachable_relayConnected hruns (by decide) (by decide +kernel)
    (by decide +kernel)).2 (by decide +kernel)

/-- Other data does not: `hi` is sent as `h` and a zero. -/
theorem not_relayed_eq :
    ¬ ∀ (ctx ctx' : Ctx) (tr ev : List Event), Reachable relayServer fdSetsize ctx tr →
      Runs relayServer fdSetsize ctx (live ∅ tr) ev ctx' →
        ∀ i d : ℕ, d ≠ i → d ∈ live ∅ tr → Event.closed d ∉ ev →
          relayed i d ev = (chunks i ev).flatMap Chunk.bytes := by
  intro h
  have hpass : mainPass (relayRead relayHi) (fun _ _ => true) relayConnected
      = some (relayConnected, relayReadEvents relayHi) := by decide +kernel
  have hruns : Runs relayServer fdSetsize relayConnected (live ∅ relayTrace)
      ([] ++ relayReadEvents relayHi) relayConnected :=
    .next .start ⟨_, _, hpass⟩ (legal_relayReadEvents _ _)
  have hsame := h _ _ _ _ reachable_relayConnected hruns 4 5 (by decide) (by decide +kernel)
    (by decide +kernel)
  exact absurd hsame (by decide +kernel)

end TcpSelect
