/-
# The select loop of the two TCP servers

What `cli_server.c` and `server.c` in `src/c/tcp_select` have in common: one pass of
`select` over the master set, the loop over the descriptors `0..fdmax`, in which the
listener accepts a client and a client is read or closed, and the loop that sends a
buffer to the clients.  They differ in what they do with the data of a client, which is
a parameter of the loop (`reply`).

What the kernel answers is data (`Answers`), and everything that a pass does is an event
of its trace.  The clients are those that the trace says were accepted and not closed
(`live`); a trace is possible if the kernel hands out no descriptor that is open
(`Legal`).  The loop keeps the master set equal to the listener and the clients
(`Tracks.after_scan`), and it reads each ready client once (`recvFds_scan`), none of them on a
number that was closed or accepted in the same pass (`fresh_scan`).
-/
import Mathlib

namespace TcpSelect

/-! ## State, answers and events -/

/-- `fd_set`. -/
abbrev FdSet := Finset ℕ

/-- `FD_SETSIZE`. -/
def fdSetsize : ℕ := 1024

/-- `struct cli_server_ctx`; in `server.c` three local variables of `main`. -/
structure Ctx where
  master : FdSet
  listener : ℕ
  fdmax : ℕ
  deriving DecidableEq

/-- The data of one successful `recv` into a buffer of 1024 bytes. -/
structure Chunk where
  bytes : List UInt8
  pos : 0 < bytes.length
  le : bytes.length ≤ 1024
  deriving DecidableEq

/-- `buf[nbytes-1] = 0`. -/
def Chunk.buf (c : Chunk) : List UInt8 := c.bytes.set (c.bytes.length - 1) 0

theorem Chunk.bytes_ne_nil (c : Chunk) : c.bytes ≠ [] := List.ne_nil_of_length_pos c.pos

/-- Both servers put a zero on the last byte of what they read. -/
theorem Chunk.buf_eq (c : Chunk) : c.buf = c.bytes.dropLast ++ [0] := by
  unfold Chunk.buf
  conv_lhs => rw [← List.dropLast_append_getLast c.bytes_ne_nil]
  rw [List.length_append, List.length_singleton, Nat.add_sub_cancel,
    List.set_append_right _ _ le_rfl, Nat.sub_self]
  rfl

theorem Chunk.length_buf (c : Chunk) : c.buf.length = c.bytes.length := List.length_set

/-- What `recv` returns: less than zero, zero, or the number of bytes read. -/
inductive Recv
  | error
  | hungUp
  | data (c : Chunk)
  deriving DecidableEq

/-- What the kernel answers in one pass; `none` is `-1`.  `select` leaves the ready
descriptors in `read_fds`. -/
structure Answers where
  select : Option FdSet
  accept : Option ℕ
  recv : ℕ → Recv

/-- What a pass does. -/
inductive Event
  | isset (fd : ℕ)
  | set (fd : ℕ)
  | clr (fd : ℕ)
  | selected (passed ready : FdSet)
  | acceptFailed
  | accepted (fd : ℕ)
  | received (fd : ℕ) (r : Recv)
  | closed (fd : ℕ)
  | command (start len : ℕ) (text : List UInt8)
  | fault
  | sent (fd : ℕ) (buf : List UInt8) (nbytes : ℕ) (ok : Bool)
  deriving DecidableEq

/-- The events with which a server replies to data: they neither open nor close nor read
a descriptor. -/
def Event.IsReply : Event → Prop
  | .isset _ | .command _ _ _ | .fault | .sent _ _ _ _ => True
  | _ => False

/-! ## Starting -/

/-- What the kernel answers to the calls that open the listener; `none` and `false` are
`-1`. -/
structure InitAnswers where
  socket : Option ℕ
  setsockopt : Bool
  bind : Bool
  listen : Bool

/-- The start of both servers: the state and the trace, unless a call fails and the server
exits. -/
def openListener (a : InitAnswers) : Option (Ctx × List Event) :=
  match a.socket with
  | none => none
  | some listener =>
      if a.setsockopt && a.bind && a.listen then
        some ({ master := insert listener ∅, listener := listener, fdmax := listener },
          [.set listener])
      else none

/-! ## One pass -/

/-- The body of the loop over the descriptors. -/
def visit (k : Answers) (reply : Ctx → ℕ → Chunk → List Event) (readFds : FdSet) (i : ℕ)
    (ctx : Ctx) : Ctx × List Event :=
  if i ∈ readFds then
    if i = ctx.listener then
      match k.accept with
      | none => (ctx, [.isset i, .acceptFailed])
      | some newfd =>
          ({ ctx with
              master := insert newfd ctx.master
              fdmax := if newfd > ctx.fdmax then newfd else ctx.fdmax },
            [.isset i, .accepted newfd, .set newfd])
    else
      match k.recv i with
      | .data c => (ctx, .isset i :: .received i (.data c) :: reply ctx i c)
      | r => ({ ctx with master := ctx.master.erase i },
          [.isset i, .received i r, .closed i, .clr i])
  else (ctx, [.isset i])

/-- What the body of the loop can do. -/
inductive Visited (k : Answers) (reply : Ctx → ℕ → Chunk → List Event) (readFds : FdSet)
    (i : ℕ) (ctx : Ctx) : Ctx × List Event → Prop
  | skip (h : i ∉ readFds) : Visited k reply readFds i ctx (ctx, [.isset i])
  | acceptFailed (h : i ∈ readFds) (hi : i = ctx.listener) :
      Visited k reply readFds i ctx (ctx, [.isset i, .acceptFailed])
  | accepted (newfd : ℕ) (h : i ∈ readFds) (hi : i = ctx.listener)
      (hk : k.accept = some newfd) :
      Visited k reply readFds i ctx
        ({ ctx with
            master := insert newfd ctx.master
            fdmax := if newfd > ctx.fdmax then newfd else ctx.fdmax },
          [.isset i, .accepted newfd, .set newfd])
  | data (c : Chunk) (h : i ∈ readFds) (hi : i ≠ ctx.listener) (hk : k.recv i = .data c) :
      Visited k reply readFds i ctx (ctx, .isset i :: .received i (.data c) :: reply ctx i c)
  | closed (r : Recv) (h : i ∈ readFds) (hi : i ≠ ctx.listener) (hr : ∀ c, r ≠ .data c)
      (hk : k.recv i = r) :
      Visited k reply readFds i ctx ({ ctx with master := ctx.master.erase i },
        [.isset i, .received i r, .closed i, .clr i])

theorem visited (k : Answers) (reply : Ctx → ℕ → Chunk → List Event) (readFds : FdSet) (i : ℕ)
    (ctx : Ctx) : Visited k reply readFds i ctx (visit k reply readFds i ctx) := by
  unfold visit
  split_ifs with h hi
  · cases hk : k.accept with
    | none => exact .acceptFailed h hi
    | some newfd => exact .accepted newfd h hi hk
  · cases hk : k.recv i with
    | data c => exact .data c h hi hk
    | error => exact .closed .error h hi (by intro c; simp) hk
    | hungUp => exact .closed .hungUp h hi (by intro c; simp) hk
  · exact .skip h

/-- `fdmax` grows, at most to the new descriptor. -/
theorem visit_fdmax (k : Answers) (reply : Ctx → ℕ → Chunk → List Event) (readFds : FdSet)
    (i : ℕ) (ctx : Ctx) : ctx.fdmax ≤ (visit k reply readFds i ctx).1.fdmax ∧
      (visit k reply readFds i ctx).1.fdmax ≤ max ctx.fdmax (k.accept.getD 0) := by
  have hstep := visited k reply readFds i ctx
  generalize visit k reply readFds i ctx = r at hstep
  cases hstep with
  | accepted newfd h hi hk =>
    rw [hk, Option.getD_some]
    dsimp only
    split_ifs <;> omega
  | _ => exact ⟨le_rfl, le_max_left _ _⟩

/-- `for (i = 0; i <= fdmax; i++)`, from `i` on; `fdmax` is read again in every turn. -/
def scan (k : Answers) (reply : Ctx → ℕ → Chunk → List Event) (readFds : FdSet) (i : ℕ)
    (ctx : Ctx) : Ctx × List Event :=
  if _h : i ≤ ctx.fdmax then
    let r := visit k reply readFds i ctx
    let rest := scan k reply readFds (i + 1) r.1
    (rest.1, r.2 ++ rest.2)
  else (ctx, [])
termination_by max ctx.fdmax (k.accept.getD 0) + 1 - i
decreasing_by
  have := visit_fdmax k reply readFds i ctx
  omega

/-- `select` and the loop after it: the state and the trace, unless `select` fails and the
server exits. -/
def pass (k : Answers) (reply : Ctx → ℕ → Chunk → List Event) (ctx : Ctx) :
    Option (Ctx × List Event) :=
  k.select.map fun ready =>
    let r := scan k reply ready 0 ctx
    (r.1, .selected ctx.master ready :: r.2)

/-- `for (j = 0; j <= fdmax; j++)`: the buffer goes to the members of the master set that
are wanted; `ok` says which calls of `send` succeed. -/
def broadcast (ctx : Ctx) (wanted : ℕ → Bool) (buf : List UInt8) (nbytes : ℕ)
    (ok : ℕ → Bool) : List Event :=
  (List.range (ctx.fdmax + 1)).flatMap fun j =>
    if j ∈ ctx.master ∧ wanted j = true then [.isset j, .sent j buf nbytes (ok j)] else [.isset j]

/-! ## Clients -/

/-- The clients after an event. -/
def liveStep (s : FdSet) : Event → FdSet
  | .accepted fd => insert fd s
  | .closed fd => s.erase fd
  | _ => s

/-- **The clients after a trace**: accepted and not closed since. -/
def live (s : FdSet) (ev : List Event) : FdSet := ev.foldl liveStep s

@[simp] theorem live_nil (s : FdSet) : live s [] = s := rfl

@[simp] theorem live_cons (s : FdSet) (e : Event) (ev : List Event) :
    live s (e :: ev) = live (liveStep s e) ev := rfl

@[simp] theorem live_append (s : FdSet) (ev ev' : List Event) :
    live s (ev ++ ev') = live (live s ev) ev' := List.foldl_append

/-- What the kernel may answer, with the clients `s` connected: `select` returns members of
the set it was passed, and `accept` a descriptor that is not open, below the `limit` of the
process. -/
def Event.Allowed (limit listener : ℕ) (s : FdSet) : Event → Prop
  | .selected passed ready => ready ⊆ passed
  | .accepted fd => fd ≠ listener ∧ fd ∉ s ∧ fd < limit
  | _ => True

/-- **A possible trace**, starting with the clients `s`. -/
def Legal (limit listener : ℕ) : FdSet → List Event → Prop
  | _, [] => True
  | s, e :: ev => e.Allowed limit listener s ∧ Legal limit listener (liveStep s e) ev

theorem legal_append {limit listener : ℕ} {s : FdSet} {ev ev' : List Event} :
    Legal limit listener s (ev ++ ev') ↔
      Legal limit listener s ev ∧ Legal limit listener (live s ev) ev' := by
  induction ev generalizing s with
  | nil => simp [Legal]
  | cons e ev ih => simp [Legal, ih, and_assoc]

/-- Replies leave the clients as they are. -/
theorem live_of_reply {ev : List Event} (h : ∀ e ∈ ev, e.IsReply) (s : FdSet) :
    live s ev = s := by
  induction ev generalizing s with
  | nil => rfl
  | cons e ev ih =>
    have he := h e List.mem_cons_self
    have hstep : liveStep s e = s := by
      cases e <;> first | rfl | exact he.elim
    rw [live_cons, hstep]
    exact ih (fun e' he' => h e' (List.mem_cons_of_mem _ he')) s

/-- Replies ask nothing of the kernel that it could answer wrongly. -/
theorem legal_of_reply {ev : List Event} (h : ∀ e ∈ ev, e.IsReply) (limit listener : ℕ)
    (s : FdSet) : Legal limit listener s ev := by
  induction ev generalizing s with
  | nil => trivial
  | cons e ev ih =>
    have he := h e List.mem_cons_self
    constructor
    · cases e <;> trivial
    · exact ih (fun e' he' => h e' (List.mem_cons_of_mem _ he')) _

/-- **The invariant**: the master set holds the listener and the clients `s`, and all of
them are within reach of the loops. -/
structure Tracks (ctx : Ctx) (s : FdSet) : Prop where
  master : ctx.master = insert ctx.listener s
  listener : ctx.listener ∉ s
  le_fdmax : ∀ fd ∈ ctx.master, fd ≤ ctx.fdmax

/-- The invariant holds at the start, without clients. -/
theorem Tracks.init {a : InitAnswers} {ctx : Ctx} {ev : List Event}
    (h : openListener a = some (ctx, ev)) : Tracks ctx ∅ ∧ live ∅ ev = ∅ := by
  unfold openListener at h
  split at h
  · exact absurd h (by simp)
  · split_ifs at h
    obtain ⟨rfl, rfl⟩ := Prod.mk.inj (Option.some.inj h)
    refine ⟨⟨rfl, Finset.notMem_empty _, ?_⟩, rfl⟩
    intro fd hfd
    rcases Finset.mem_insert.1 hfd with rfl | hno
    · exact le_rfl
    · exact absurd hno (Finset.notMem_empty _)

section Loop

variable {k : Answers} {reply : Ctx → ℕ → Chunk → List Event} {readFds : FdSet} {ctx : Ctx}
  {s : FdSet} {limit : ℕ}

theorem visit_listener (i : ℕ) : (visit k reply readFds i ctx).1.listener = ctx.listener := by
  have hstep := visited k reply readFds i ctx
  generalize visit k reply readFds i ctx = r at hstep
  cases hstep <;> rfl

theorem scan_listener (i : ℕ) : (scan k reply readFds i ctx).1.listener = ctx.listener := by
  fun_induction scan k reply readFds i ctx with
  | case1 i ctx h r rest ih => exact ih.trans (visit_listener i)
  | case2 i ctx h => rfl

theorem le_scan_fdmax (i : ℕ) : ctx.fdmax ≤ (scan k reply readFds i ctx).1.fdmax := by
  fun_induction scan k reply readFds i ctx with
  | case1 i ctx h r rest ih => exact (visit_fdmax k reply readFds i ctx).1.trans ih
  | case2 i ctx h => exact le_rfl

/-- One turn of the loop keeps the invariant. -/
theorem Tracks.after_visit (hreply : ∀ ctx i c, ∀ e ∈ reply ctx i c, e.IsReply) (h : Tracks ctx s)
    (i : ℕ) (hlegal : Legal limit ctx.listener s (visit k reply readFds i ctx).2) :
    Tracks (visit k reply readFds i ctx).1
      (live s (visit k reply readFds i ctx).2) := by
  have hstep := visited k reply readFds i ctx
  generalize visit k reply readFds i ctx = r at hstep hlegal
  cases hstep with
  | skip hi => exact h
  | acceptFailed hi hl => exact h
  | accepted newfd hi hl hk =>
    obtain ⟨-, ⟨hne, -, -⟩, -⟩ := hlegal
    -- the new descriptor is neither the listener nor a client
    constructor
    · show insert newfd ctx.master = insert ctx.listener (insert newfd s)
      rw [h.master, Finset.insert_comm]
    · show ctx.listener ∉ insert newfd s
      rw [Finset.mem_insert, not_or]
      exact ⟨Ne.symm hne, h.listener⟩
    · intro fd hfd
      show fd ≤ if newfd > ctx.fdmax then newfd else ctx.fdmax
      rcases Finset.mem_insert.1 hfd with heq | hfd
      · split_ifs <;> omega
      · have hle := h.le_fdmax fd hfd
        split_ifs <;> omega
  | data c hi hl hk =>
    rw [live_cons, live_cons, live_of_reply (hreply ctx i c)]
    exact h
  | closed r hi hl hr hk =>
    constructor
    · show ctx.master.erase i = insert ctx.listener (s.erase i)
      rw [h.master, Finset.erase_insert_of_ne (Ne.symm hl)]
    · show ctx.listener ∉ s.erase i
      intro hmem
      exact h.listener (Finset.mem_of_mem_erase hmem)
    · intro fd hfd
      exact h.le_fdmax fd (Finset.mem_of_mem_erase hfd)

/-- **The loop keeps the invariant.** -/
theorem Tracks.after_scan (hreply : ∀ ctx i c, ∀ e ∈ reply ctx i c, e.IsReply) (h : Tracks ctx s)
    (i : ℕ) (hlegal : Legal limit ctx.listener s (scan k reply readFds i ctx).2) :
    Tracks (scan k reply readFds i ctx).1
      (live s (scan k reply readFds i ctx).2) := by
  fun_induction scan k reply readFds i ctx generalizing s with
  | case1 i ctx hi r rest =>
    rename_i ih
    obtain ⟨hfirst, hrest⟩ := legal_append.1 hlegal
    rw [live_append]
    apply ih (h.after_visit hreply i hfirst)
    rw [show r.1.listener = ctx.listener from visit_listener i]
    exact hrest
  | case2 i ctx hi => exact h

/-! ## Which descriptors are read -/

/-- The descriptor of a `recv`. -/
def Event.recvFd : Event → Option ℕ
  | .received fd _ => some fd
  | _ => none

/-- The descriptors on which `recv` is called, in order. -/
def recvFds (ev : List Event) : List ℕ := ev.filterMap Event.recvFd

theorem recvFds_of_reply {ev : List Event} (h : ∀ e ∈ ev, e.IsReply) : recvFds ev = [] := by
  apply List.filterMap_eq_nil_iff.2
  intro e he
  have hreply := h e he
  cases e <;> first | rfl | exact hreply.elim

theorem recvFds_visit (hreply : ∀ ctx i c, ∀ e ∈ reply ctx i c, e.IsReply) (i : ℕ) :
    recvFds (visit k reply readFds i ctx).2
      = if i ∈ readFds ∧ i ≠ ctx.listener then [i] else [] := by
  have hstep := visited k reply readFds i ctx
  generalize visit k reply readFds i ctx = r at hstep
  cases hstep with
  | skip hi =>
    have hno : ¬ (i ∈ readFds ∧ i ≠ ctx.listener) := fun h => hi h.1
    rw [if_neg hno]
    rfl
  | acceptFailed hi hl =>
    have hno : ¬ (i ∈ readFds ∧ i ≠ ctx.listener) := fun h => h.2 hl
    rw [if_neg hno]
    rfl
  | accepted newfd hi hl hk =>
    have hno : ¬ (i ∈ readFds ∧ i ≠ ctx.listener) := fun h => h.2 hl
    rw [if_neg hno]
    rfl
  | data c hi hl hk =>
    rw [if_pos ⟨hi, hl⟩]
    show i :: recvFds (reply ctx i c) = [i]
    rw [recvFds_of_reply (hreply ctx i c)]
  | closed r hi hl hr hk => rw [if_pos ⟨hi, hl⟩]; rfl

/-- **The loop reads the ready clients**, in the order of their numbers. -/
theorem recvFds_scan (hreply : ∀ ctx i c, ∀ e ∈ reply ctx i c, e.IsReply) (i : ℕ) :
    recvFds (scan k reply readFds i ctx).2
      = (List.range' i ((scan k reply readFds i ctx).1.fdmax + 1 - i)).filter fun j =>
          decide (j ∈ readFds ∧ j ≠ ctx.listener) := by
  fun_induction scan k reply readFds i ctx with
  | case1 i ctx hi r rest ih =>
    -- this turn is within the bound that the loop ends with
    have hle : r.1.fdmax ≤ rest.1.fdmax := le_scan_fdmax (i + 1)
    have hmax := (visit_fdmax k reply readFds i ctx).1
    have hlen : rest.1.fdmax + 1 - i = (rest.1.fdmax + 1 - (i + 1)) + 1 := by
      have : ctx.fdmax ≤ r.1.fdmax := hmax
      omega
    rw [show r.1.listener = ctx.listener from visit_listener i] at ih
    rw [hlen, List.range'_succ, List.filter_cons, recvFds, List.filterMap_append]
    show recvFds r.2 ++ recvFds rest.2 = _
    rw [ih, recvFds_visit hreply]
    by_cases hread : i ∈ readFds ∧ i ≠ ctx.listener
    · rw [if_pos hread, if_pos (by simpa using hread), List.singleton_append]
    · rw [if_neg hread, if_neg (by simpa using hread), List.nil_append]
  | case2 i ctx hi =>
    rw [show ctx.fdmax + 1 - i = 0 by omega]
    rfl

/-- No read is on a number that was closed or accepted before it. -/
def FreshReads (ev : List Event) : Prop :=
  ev.Pairwise fun e e' => ∀ fd r, e' = .received fd r → e ≠ .closed fd ∧ e ≠ .accepted fd

theorem mem_recvFds {ev : List Event} {fd : ℕ} {r : Recv} (h : Event.received fd r ∈ ev) :
    fd ∈ recvFds ev := List.mem_filterMap.2 ⟨_, h, rfl⟩

/-- One turn reads, if at all, before it closes. -/
theorem fresh_visit (hreply : ∀ ctx i c, ∀ e ∈ reply ctx i c, e.IsReply) (i : ℕ) :
    FreshReads (visit k reply readFds i ctx).2 := by
  have hstep := visited k reply readFds i ctx
  generalize visit k reply readFds i ctx = r at hstep
  cases hstep with
  | data c hi hl hk =>
    have hno : ∀ e ∈ reply ctx i c, ∀ fd r, e ≠ .received fd r := by
      rintro e he fd r rfl
      exact hreply ctx i c _ he
    refine List.Pairwise.cons ?_ (List.Pairwise.cons ?_ ?_)
    · intro e' _ fd r _
      simp
    · intro e' he' fd r heq
      exact absurd heq (hno e' he' fd r)
    · refine List.pairwise_of_forall_mem_list fun e _ e' he' fd r heq => ?_
      exact absurd heq (hno e' he' fd r)
  | _ => simp [FreshReads]

/-- A turn closes its own descriptor only. -/
theorem Visited.not_closed (hreply : ∀ ctx i c, ∀ e ∈ reply ctx i c, e.IsReply) {i : ℕ}
    {r : Ctx × List Event} (h : Visited k reply readFds i ctx r) {fd : ℕ} (hne : fd ≠ i) :
    Event.closed fd ∉ r.2 := by
  cases h with
  | data c hi hl hk =>
    intro hmem
    have hmem' : Event.closed fd ∈ reply ctx i c := by simpa using hmem
    exact hreply ctx i c _ hmem'
  | closed r hi hl hr hk => simp [hne]
  | _ => simp

/-- A turn accepts no descriptor that is connected. -/
theorem Visited.not_accepted (hreply : ∀ ctx i c, ∀ e ∈ reply ctx i c, e.IsReply) {i : ℕ}
    {r : Ctx × List Event} (h : Visited k reply readFds i ctx r)
    (hlegal : Legal limit ctx.listener s r.2) {fd : ℕ} (hs : fd ∈ s) : Event.accepted fd ∉ r.2 := by
  cases h with
  | accepted newfd hi hl hk =>
    obtain ⟨-, ⟨-, hfresh, -⟩, -⟩ := hlegal
    intro hmem
    obtain rfl : fd = newfd := by simpa using hmem
    exact hfresh hs
  | data c hi hl hk =>
    intro hmem
    have hmem' : Event.accepted fd ∈ reply ctx i c := by simpa using hmem
    exact hreply ctx i c _ hmem'
  | _ => simp

/-- A client that is not closed stays. -/
theorem mem_liveStep {e : Event} {fd : ℕ} (hs : fd ∈ s) (h : e ≠ .closed fd) :
    fd ∈ liveStep s e := by
  cases e with
  | accepted newfd => exact Finset.mem_insert_of_mem hs
  | closed fd' =>
    refine Finset.mem_erase.2 ⟨?_, hs⟩
    rintro rfl
    exact h rfl
  | _ => exact hs

theorem mem_live_of_not_closed {ev : List Event} {fd : ℕ} (hs : fd ∈ s)
    (h : Event.closed fd ∉ ev) : fd ∈ live s ev := by
  induction ev generalizing s with
  | nil => exact hs
  | cons e ev ih =>
    rw [List.mem_cons, not_or] at h
    exact ih (mem_liveStep hs (Ne.symm h.1)) h.2

/-- **No read on a reused number**: in one pass no descriptor is read that was closed or
accepted before, provided that the ready descriptors were connected. -/
theorem fresh_scan (hreply : ∀ ctx i c, ∀ e ∈ reply ctx i c, e.IsReply) (i : ℕ)
    (hlegal : Legal limit ctx.listener s (scan k reply readFds i ctx).2)
    (hready : ∀ fd ∈ readFds, i ≤ fd → fd ≠ ctx.listener → fd ∈ s) :
    FreshReads (scan k reply readFds i ctx).2 := by
  fun_induction scan k reply readFds i ctx generalizing s with
  | case1 i ctx hi r rest =>
    rename_i ih
    obtain ⟨hfirst, hrest⟩ := legal_append.1 hlegal
    have hlistener : r.1.listener = ctx.listener := visit_listener i
    have hstep : Visited k reply readFds i ctx r := visited k reply readFds i ctx
    -- later reads are on connected descriptors above `i`, and none of these is touched now
    have hlater : ∀ fd ∈ recvFds (scan k reply readFds (i + 1) r.1).2,
        fd ∈ s ∧ .closed fd ∉ r.2 ∧ .accepted fd ∉ r.2 := by
      intro fd hfd
      rw [recvFds_scan hreply, List.mem_filter, List.mem_range'_1, hlistener] at hfd
      obtain ⟨⟨hle, -⟩, hcond⟩ := hfd
      simp only [decide_eq_true_eq] at hcond
      have hs : fd ∈ s := hready fd hcond.1 (by omega) hcond.2
      exact ⟨hs, hstep.not_closed hreply (by omega), hstep.not_accepted hreply hfirst hs⟩
    refine List.pairwise_append.2 ⟨fresh_visit hreply i, ?_, ?_⟩
    · apply ih
      · rw [hlistener]
        exact hrest
      · intro fd hfd hle hne
        rw [hlistener] at hne
        have hs : fd ∈ s := hready fd hfd (by omega) hne
        exact mem_live_of_not_closed hs (hstep.not_closed hreply (by omega))
    · rintro e he e' he' fd r' rfl
      obtain ⟨-, hclosed, haccepted⟩ := hlater fd (mem_recvFds he')
      constructor
      · rintro rfl
        exact hclosed he
      · rintro rfl
        exact haccepted he
  | case2 i ctx hi => exact List.Pairwise.nil

/-- **What a pass reads**: each ready client once, nothing else, and no number that was
closed or accepted in the same pass. -/
structure ReadsReady (listener : ℕ) (ready : FdSet) (ev : List Event) : Prop where
  nodup : (recvFds ev).Nodup
  mem_iff : ∀ fd, fd ∈ recvFds ev ↔ fd ∈ ready ∧ fd ≠ listener
  fresh : FreshReads ev

/-- **A pass keeps the invariant.** -/
theorem Tracks.after_pass (hreply : ∀ ctx i c, ∀ e ∈ reply ctx i c, e.IsReply) (h : Tracks ctx s)
    {ctx' : Ctx} {ev : List Event} (hpass : pass k reply ctx = some (ctx', ev))
    (hlegal : Legal limit ctx.listener s ev) :
    Tracks ctx' (live s ev) ∧ ctx'.listener = ctx.listener := by
  obtain ⟨ready, -, heq⟩ := Option.map_eq_some_iff.1 hpass
  obtain ⟨rfl, rfl⟩ := Prod.mk.inj heq
  exact ⟨h.after_scan hreply 0 hlegal.2, scan_listener 0⟩

/-- **What a pass reads**, in a state that keeps the invariant. -/
theorem Tracks.reads (hreply : ∀ ctx i c, ∀ e ∈ reply ctx i c, e.IsReply) (h : Tracks ctx s)
    {ctx' : Ctx} {ev : List Event} (hpass : pass k reply ctx = some (ctx', ev))
    (hlegal : Legal limit ctx.listener s ev) :
    ∃ ready, k.select = some ready ∧ ReadsReady ctx.listener ready ev ∧
      ∀ fd ∈ recvFds ev, fd ∈ s := by
  obtain ⟨ready, hselect, heq⟩ := Option.map_eq_some_iff.1 hpass
  obtain ⟨rfl, rfl⟩ := Prod.mk.inj heq
  obtain ⟨hsub, hlegal⟩ := hlegal
  have hreads : recvFds (scan k reply ready 0 ctx).2
      = (List.range' 0 ((scan k reply ready 0 ctx).1.fdmax + 1 - 0)).filter fun j =>
          decide (j ∈ ready ∧ j ≠ ctx.listener) := recvFds_scan hreply 0
  -- a ready descriptor other than the listener is a client
  have hclient : ∀ fd ∈ ready, fd ≠ ctx.listener → fd ∈ s := by
    intro fd hfd hne
    have hmem : fd ∈ insert ctx.listener s := h.master ▸ hsub hfd
    exact (Finset.mem_insert.1 hmem).resolve_left hne
  have hmem_iff : ∀ fd, fd ∈ recvFds (scan k reply ready 0 ctx).2 ↔
      fd ∈ ready ∧ fd ≠ ctx.listener := by
    intro fd
    rw [hreads, List.mem_filter, List.mem_range'_1, decide_eq_true_iff]
    constructor
    · intro hfd
      exact hfd.2
    · intro hfd
      have hle := h.le_fdmax fd (hsub hfd.1)
      have hmax : ctx.fdmax ≤ (scan k reply ready 0 ctx).1.fdmax := le_scan_fdmax 0
      exact ⟨by omega, hfd⟩
  refine ⟨ready, hselect, ⟨?_, hmem_iff, ?_⟩, ?_⟩
  · show (recvFds (scan k reply ready 0 ctx).2).Nodup
    rw [hreads]
    exact List.Nodup.filter _ List.nodup_range'
  · refine List.Pairwise.cons ?_ ?_
    · intro e' _ fd r _
      simp
    · exact fresh_scan hreply 0 hlegal fun fd hfd _ hne => hclient fd hfd hne
  · intro fd hfd
    obtain ⟨hready, hne⟩ := (hmem_iff fd).1 hfd
    exact hclient fd hready hne

end Loop

/-! ## Sending -/

/-- The descriptor, the buffer and the number of bytes of a `send`. -/
def Event.send : Event → Option (ℕ × List UInt8 × ℕ)
  | .sent fd buf nbytes _ => some (fd, buf, nbytes)
  | _ => none

/-- The calls of `send`, in order. -/
def sends (ev : List Event) : List (ℕ × List UInt8 × ℕ) := ev.filterMap Event.send

theorem mem_broadcast {ctx : Ctx} {wanted : ℕ → Bool} {buf : List UInt8} {nbytes : ℕ}
    {ok : ℕ → Bool} {e : Event} (h : e ∈ broadcast ctx wanted buf nbytes ok) :
    (∃ j, e = .isset j) ∨ ∃ j b, e = .sent j buf nbytes b := by
  obtain ⟨j, -, he⟩ := List.mem_flatMap.1 h
  split_ifs at he
  · rcases List.mem_cons.1 he with rfl | he
    · exact .inl ⟨j, rfl⟩
    · exact .inr ⟨j, ok j, List.mem_singleton.1 he⟩
  · exact .inl ⟨j, List.mem_singleton.1 he⟩

theorem isReply_broadcast {ctx : Ctx} {wanted : ℕ → Bool} {buf : List UInt8} {nbytes : ℕ}
    {ok : ℕ → Bool} {e : Event} (h : e ∈ broadcast ctx wanted buf nbytes ok) : e.IsReply := by
  rcases mem_broadcast h with ⟨j, rfl⟩ | ⟨j, b, rfl⟩ <;> trivial

/-- **The loop over `send`** serves the wanted members of the master set, once each,
whatever the calls return. -/
theorem sends_broadcast (ctx : Ctx) (wanted : ℕ → Bool) (buf : List UInt8) (nbytes : ℕ)
    (ok : ℕ → Bool) :
    sends (broadcast ctx wanted buf nbytes ok)
      = ((List.range (ctx.fdmax + 1)).filter fun j =>
          decide (j ∈ ctx.master ∧ wanted j = true)).map fun j => (j, buf, nbytes) := by
  unfold sends broadcast
  induction List.range (ctx.fdmax + 1) with
  | nil => rfl
  | cons j js ih =>
    rw [List.flatMap_cons, List.filterMap_append, ih, List.filter_cons]
    by_cases hj : j ∈ ctx.master ∧ wanted j = true
    · rw [if_pos hj, if_pos (by simpa using hj)]
      rfl
    · rw [if_neg hj, if_neg (by simpa using hj)]
      rfl

/-- Every client that is wanted is served once, and no other descriptor. -/
theorem exists_sends_broadcast {ctx : Ctx} {s : FdSet} (h : Tracks ctx s) (wanted : ℕ → Bool)
    (hwanted : wanted ctx.listener = false) (buf : List UInt8) (nbytes : ℕ) (ok : ℕ → Bool) :
    ∃ fds : List ℕ, fds.Nodup ∧ (∀ fd, fd ∈ fds ↔ fd ∈ s ∧ wanted fd = true) ∧
      sends (broadcast ctx wanted buf nbytes ok) = fds.map fun fd => (fd, buf, nbytes) := by
  refine ⟨_, List.nodup_range.filter _, ?_, sends_broadcast ctx wanted buf nbytes ok⟩
  intro fd
  rw [List.mem_filter, List.mem_range, decide_eq_true_iff]
  constructor
  · rintro ⟨-, hmem, hw⟩
    rw [h.master, Finset.mem_insert] at hmem
    rcases hmem with rfl | hs
    · simp [hwanted] at hw
    · exact ⟨hs, hw⟩
  · rintro ⟨hs, hw⟩
    have hmem : fd ∈ ctx.master := by
      rw [h.master]
      exact Finset.mem_insert_of_mem hs
    have hle := h.le_fdmax fd hmem
    exact ⟨by omega, hmem, hw⟩

end TcpSelect
