/-
# The descriptor sets of the command server

Which descriptors `src/c/tcp_select/cli_server.c` passes to `FD_SET`, `FD_ISSET` and
`FD_CLR`.  A descriptor set has room for `FD_SETSIZE` descriptors, and `accept` may return
a larger one in a process that may open more files; the server does not look.  So the sets
are used within their bounds exactly as long as no such descriptor comes in (`inSets_iff`).
-/
import LeakimMisc.CliServerCommands

namespace TcpSelect

/-! ## Descriptors in the sets -/

/-- The descriptor that is passed to `FD_SET`, `FD_ISSET` or `FD_CLR`. -/
def Event.setFd : Event → Option ℕ
  | .isset fd => some fd
  | .set fd => some fd
  | .clr fd => some fd
  | _ => none

/-- Only descriptors below `N` are used with the sets. -/
def SetsBelow (N : ℕ) (ev : List Event) : Prop := ∀ e ∈ ev, ∀ fd, e.setFd = some fd → fd < N

/-- `accept` returns only descriptors below `N`. -/
def AcceptsBelow (N : ℕ) (ev : List Event) : Prop := ∀ fd, .accepted fd ∈ ev → fd < N

/-- Every descriptor that was used with a set is below `FD_SETSIZE`, and so are the members
of the master set and `fdmax`. -/
structure InSets (ctx : Ctx) (tr : List Event) : Prop where
  used : SetsBelow fdSetsize tr
  master : ∀ fd ∈ ctx.master, fd < fdSetsize
  fdmax : ctx.fdmax < fdSetsize

theorem setsBelow_append {N : ℕ} {ev ev' : List Event} :
    SetsBelow N (ev ++ ev') ↔ SetsBelow N ev ∧ SetsBelow N ev' := by
  simp only [SetsBelow, List.mem_append, or_imp, forall_and]

theorem acceptsBelow_append {N : ℕ} {ev ev' : List Event} :
    AcceptsBelow N (ev ++ ev') ↔ AcceptsBelow N ev ∧ AcceptsBelow N ev' := by
  simp only [AcceptsBelow, List.mem_append, or_imp, forall_and]

section Scan

variable {k : Answers} {reply : Ctx → ℕ → Chunk → List Event} {readFds : FdSet} {ctx : Ctx}
  {N : ℕ}

/-- One turn of the loop uses its own descriptor and the accepted one. -/
theorem setsBelow_visit (hreply : ∀ ctx i c, SetsBelow (ctx.fdmax + 1) (reply ctx i c)) {i : ℕ}
    (hi : i ≤ ctx.fdmax) (hN : ctx.fdmax < N)
    (hacc : AcceptsBelow N (visit k reply readFds i ctx).2) :
    SetsBelow N (visit k reply readFds i ctx).2 ∧ (visit k reply readFds i ctx).1.fdmax < N := by
  have hstep := visited k reply readFds i ctx
  generalize visit k reply readFds i ctx = r at hstep hacc
  cases hstep with
  | skip h =>
    refine ⟨?_, hN⟩
    simp [SetsBelow, Event.setFd]
    omega
  | acceptFailed h hl =>
    refine ⟨?_, hN⟩
    simp [SetsBelow, Event.setFd]
    omega
  | accepted newfd h hl hk =>
    have hnew : newfd < N := hacc newfd (by simp)
    constructor
    · simp [SetsBelow, Event.setFd]
      omega
    · dsimp only
      split_ifs <;> omega
  | data c h hl hk =>
    refine ⟨?_, hN⟩
    intro e he fd hfd
    rcases List.mem_cons.1 he with rfl | he
    · obtain rfl := Option.some.inj hfd
      omega
    · rcases List.mem_cons.1 he with rfl | he
      · exact absurd hfd (by simp [Event.setFd])
      · have hlt := hreply ctx i c e he fd hfd
        omega
  | closed r h hl hr hk =>
    refine ⟨?_, hN⟩
    simp [SetsBelow, Event.setFd]
    omega

/-- **The loop** uses no descriptor from `N` on, if `accept` returns none. -/
theorem setsBelow_scan (hreply : ∀ ctx i c, SetsBelow (ctx.fdmax + 1) (reply ctx i c)) (i : ℕ)
    (hN : ctx.fdmax < N) (hacc : AcceptsBelow N (scan k reply readFds i ctx).2) :
    SetsBelow N (scan k reply readFds i ctx).2 ∧ (scan k reply readFds i ctx).1.fdmax < N := by
  fun_induction scan k reply readFds i ctx with
  | case1 i ctx hi r rest ih =>
    obtain ⟨hfirst, hrest⟩ := acceptsBelow_append.1 hacc
    obtain ⟨hvisit, hmax⟩ := setsBelow_visit hreply hi hN hfirst
    obtain ⟨hscan, hmax'⟩ := ih hmax hrest
    exact ⟨setsBelow_append.2 ⟨hvisit, hscan⟩, hmax'⟩
  | case2 i ctx hi =>
    refine ⟨?_, hN⟩
    intro e he
    exact absurd he List.not_mem_nil

/-- What is accepted is put into the master set. -/
theorem set_of_accepted_visit (hreply : ∀ ctx i c, ∀ e ∈ reply ctx i c, e.IsReply) {i fd : ℕ}
    (h : .accepted fd ∈ (visit k reply readFds i ctx).2) :
    .set fd ∈ (visit k reply readFds i ctx).2 := by
  have hstep := visited k reply readFds i ctx
  generalize visit k reply readFds i ctx = r at hstep h
  cases hstep with
  | accepted newfd hr hl hk =>
    obtain rfl : fd = newfd := by simpa using h
    simp
  | data c hr hl hk =>
    have hmem : Event.accepted fd ∈ reply ctx i c := by simpa using h
    exact absurd (hreply ctx i c _ hmem) id
  | _ => simp at h

theorem set_of_accepted_scan (hreply : ∀ ctx i c, ∀ e ∈ reply ctx i c, e.IsReply) (i : ℕ)
    {fd : ℕ} (h : .accepted fd ∈ (scan k reply readFds i ctx).2) :
    .set fd ∈ (scan k reply readFds i ctx).2 := by
  fun_induction scan k reply readFds i ctx with
  | case1 i ctx hi r rest ih =>
    rcases List.mem_append.1 h with h | h
    · exact List.mem_append_left _ (set_of_accepted_visit hreply h)
    · exact List.mem_append_right _ (ih h)
  | case2 i ctx hi => exact absurd h List.not_mem_nil

/-- A descriptor that is not ready is skipped. -/
theorem scan_skip {i : ℕ} (h : i ∉ readFds) (hi : i ≤ ctx.fdmax) :
    scan k reply readFds i ctx = ((scan k reply readFds (i + 1) ctx).1,
      .isset i :: (scan k reply readFds (i + 1) ctx).2) := by
  rw [scan, dif_pos hi, visit, if_neg h]
  rfl

/-- The end of the loop, when nothing more is ready. -/
theorem scan_of_not_ready {i : ℕ} (h : ∀ j, i ≤ j → j ∉ readFds) :
    scan k reply readFds i ctx
      = (ctx, (List.range' i (ctx.fdmax + 1 - i)).map .isset) := by
  rcases Nat.lt_or_ge ctx.fdmax i with hlt | hle
  · rw [scan, dif_neg (by omega), show ctx.fdmax + 1 - i = 0 by omega]
    rfl
  · have hlen : ctx.fdmax + 1 - i = (ctx.fdmax + 1 - (i + 1)) + 1 := by omega
    have hrest := scan_of_not_ready (i := i + 1) fun j hj => h j (by omega)
    rw [scan_skip (h i le_rfl) hle, hrest, hlen, List.range'_succ]
    rfl
termination_by ctx.fdmax + 1 - i

end Scan

/-! ## Runs -/

/-- Lines are handed to the callback and nothing else. -/
theorem setFd_lineCalls {i : ℕ} {ls : List (List UInt8)} {e : Event} (h : e ∈ lineCalls i ls) :
    e.setFd = none := by
  induction ls generalizing i with
  | nil => exact absurd h List.not_mem_nil
  | cons l ls ih =>
    rcases List.mem_append.1 h with h | h
    · split_ifs at h
      · rw [List.mem_singleton.1 h]
        rfl
      · exact absurd h List.not_mem_nil
    · exact ih h

/-- The callbacks use no set. -/
theorem setsBelow_cliReply (N : ℕ) (c : Chunk) : SetsBelow N (cliReply c) := by
  obtain ⟨ls, l, hlines⟩ := Pieces.exists_splitOn_eq 10 c.bytes.dropLast
  have hlen : c.bytes.length = c.bytes.dropLast.length + 1 := by
    have hpos := c.pos
    rw [List.length_dropLast]
    omega
  intro e he fd hfd
  rw [cliReply, c.buf_eq, hlen, parsIncommingData_eq hlines] at he
  have hnone : e.setFd = none := by
    rcases List.mem_append.1 he with he | he
    · exact setFd_lineCalls he
    · rw [List.mem_singleton.1 he]
      rfl
  rw [hnone] at hfd
  exact absurd hfd (by simp)

/-- A call of the server. -/
theorem setsBelow_cliStep {N : ℕ} {ctx ctx' : Ctx} {ev : List Event} (h : CliStep ctx ev ctx')
    (hN : ctx.fdmax < N) (hacc : AcceptsBelow N ev) : SetsBelow N ev ∧ ctx'.fdmax < N := by
  cases h with
  | run k hrun =>
    obtain ⟨ready, -, heq⟩ := Option.map_eq_some_iff.1 hrun
    obtain ⟨rfl, rfl⟩ := Prod.mk.inj heq
    have hscan : AcceptsBelow N (scan k (fun _ _ => cliReply) ready 0 ctx).2 :=
      fun fd hfd => hacc fd (List.mem_cons_of_mem _ hfd)
    obtain ⟨hsets, hmax⟩ := setsBelow_scan (fun _ _ => setsBelow_cliReply _) 0 hN hscan
    refine ⟨?_, hmax⟩
    intro e he fd hfd
    rcases List.mem_cons.1 he with rfl | he
    · exact absurd hfd (by simp [Event.setFd])
    · exact hsets e he fd hfd
  | send buf nbytes ok =>
    refine ⟨?_, hN⟩
    intro e he fd hfd
    obtain ⟨j, hj, he⟩ := List.mem_flatMap.1 he
    rw [List.mem_range] at hj
    split_ifs at he
    · rcases List.mem_cons.1 he with rfl | he
      · obtain rfl := Option.some.inj hfd
        omega
      · rw [List.mem_singleton.1 he] at hfd
        exact absurd hfd (by simp [Event.setFd])
    · rw [List.mem_singleton.1 he] at hfd
      obtain rfl := Option.some.inj hfd
      omega

theorem set_of_accepted_cliStep {ctx ctx' : Ctx} {ev : List Event} (h : CliStep ctx ev ctx')
    {fd : ℕ} (hacc : .accepted fd ∈ ev) : .set fd ∈ ev := by
  cases h with
  | run k hrun =>
    obtain ⟨ready, -, heq⟩ := Option.map_eq_some_iff.1 hrun
    obtain ⟨rfl, rfl⟩ := Prod.mk.inj heq
    rcases List.mem_cons.1 hacc with hno | hmem
    · exact absurd hno (by simp)
    · exact List.mem_cons_of_mem _ (set_of_accepted_scan (fun _ _ => isReply_cliReply) 0 hmem)
  | send buf nbytes ok => exact absurd (isReply_broadcast hacc) id

/-- **A run** uses no descriptor from `N` on, if `accept` returns none. -/
theorem Runs.setsBelow {N limit : ℕ} {ctx ctx' : Ctx} {s : FdSet} {ev : List Event}
    (h : Runs cliServer limit ctx s ev ctx') (hN : ctx.fdmax < N) (hacc : AcceptsBelow N ev) :
    SetsBelow N ev ∧ ctx'.fdmax < N := by
  induction h with
  | start =>
    refine ⟨?_, hN⟩
    intro e he
    exact absurd he List.not_mem_nil
  | next h hstep hlegal ih =>
    obtain ⟨hfirst, hlast⟩ := acceptsBelow_append.1 hacc
    obtain ⟨hsets, hmax⟩ := ih hfirst
    obtain ⟨hsets', hmax'⟩ := setsBelow_cliStep hstep hmax hlast
    exact ⟨setsBelow_append.2 ⟨hsets, hsets'⟩, hmax'⟩

theorem Runs.set_of_accepted {limit : ℕ} {ctx ctx' : Ctx} {s : FdSet} {ev : List Event}
    (h : Runs cliServer limit ctx s ev ctx') {fd : ℕ} (hacc : .accepted fd ∈ ev) :
    .set fd ∈ ev := by
  induction h with
  | start => exact absurd hacc List.not_mem_nil
  | next h hstep hlegal ih =>
    rcases List.mem_append.1 hacc with hacc | hacc
    · exact List.mem_append_left _ (ih hacc)
    · exact List.mem_append_right _ (set_of_accepted_cliStep hstep hacc)

/-- **When the descriptors fit into the sets.**  In every state that the command server
reaches, whatever the limit of the process: all descriptors that it used with a set, the
members of the master set and `fdmax` are below `FD_SETSIZE` exactly if the listener and all
descriptors that `accept` returned are. -/
theorem inSets_iff {limit : ℕ} {ctx : Ctx} {tr : List Event}
    (h : Reachable cliServer limit ctx tr) :
    InSets ctx tr ↔ ctx.listener < fdSetsize ∧ AcceptsBelow fdSetsize tr := by
  have htracks : Tracks ctx (live ∅ tr) := h.tracks
  have hmem : ctx.listener ∈ ctx.master := by
    rw [htracks.master]
    exact Finset.mem_insert_self _ _
  obtain ⟨a, ctx₀, ev₀, ev, hinit, hruns, rfl⟩ := h
  have hlistener : ctx.listener = ctx₀.listener := (hruns.tracks (Tracks.init hinit).1).2
  obtain ⟨l, hev₀, hl, hmax⟩ : ∃ l, ev₀ = [.set l] ∧ ctx₀.listener = l ∧ ctx₀.fdmax = l := by
    have hopen : openListener a = some (ctx₀, ev₀) := hinit
    unfold openListener at hopen
    split at hopen
    · exact absurd hopen (by simp)
    · split_ifs at hopen
      obtain ⟨rfl, rfl⟩ := Prod.mk.inj (Option.some.inj hopen)
      exact ⟨_, rfl, rfl, rfl⟩
  subst hev₀
  constructor
  · intro hin
    refine ⟨hin.master _ hmem, ?_⟩
    intro fd hfd
    -- an accepted descriptor is put into the master set
    have hset : Event.set fd ∈ [Event.set l] ++ ev := by
      rcases List.mem_cons.1 hfd with hno | hfd
      · exact absurd hno (by simp)
      · exact List.mem_cons_of_mem _ (hruns.set_of_accepted hfd)
    exact hin.used _ hset fd rfl
  · rintro ⟨hlt, hacc⟩
    obtain ⟨hused, hfdmax⟩ := hruns.setsBelow (N := fdSetsize) (by omega)
      (acceptsBelow_append.1 hacc).2
    refine ⟨setsBelow_append.2 ⟨?_, hused⟩, ?_, hfdmax⟩
    · intro e he fd hfd
      rw [List.mem_singleton.1 he] at hfd
      obtain rfl := Option.some.inj hfd
      omega
    · intro fd hfd
      have hle := htracks.le_fdmax fd hfd
      omega

/-- One client is no problem. -/
theorem inSets_sampleConnected : InSets sampleConnected sampleTrace := by
  refine (inSets_iff reachable_sampleConnected).2 ⟨by decide, ?_⟩
  intro fd hfd
  obtain rfl : fd = 4 := by simpa [sampleTrace] using hfd
  decide

/-- The pass in which a process that may open more files accepts the descriptor 1024. -/
def sampleManyFiles : Answers := ⟨some {3}, some 1024, fun _ => .error⟩

/-- The state after it: `FD_SET` was called with 1024. -/
theorem not_inSets :
    ¬ ∀ (limit : ℕ) (ctx : Ctx) (tr : List Event), Reachable cliServer limit ctx tr →
      InSets ctx tr := by
  intro h
  have hinit : cliServerInit sampleInit = some (sampleCtx, [.set 3]) := by decide +kernel
  -- the tests of the other descriptors, 4 to 1024
  obtain ⟨rest, hrest⟩ : ∃ rest, rest = (List.range' 4 1021).map Event.isset := ⟨_, rfl⟩
  have hlast : scan sampleManyFiles (fun _ _ => cliReply) {3} 4 ⟨{1024, 3}, 3, 1024⟩
      = (⟨{1024, 3}, 3, 1024⟩, rest) := by
    rw [hrest]
    apply scan_of_not_ready
    intro j hj
    rw [Finset.mem_singleton]
    omega
  have hvisit : visit sampleManyFiles (fun _ _ => cliReply) {3} 3 sampleCtx
      = (⟨{1024, 3}, 3, 1024⟩, [.isset 3, .accepted 1024, .set 1024]) := by decide +kernel
  have haccept : scan sampleManyFiles (fun _ _ => cliReply) {3} 3 sampleCtx
      = (⟨{1024, 3}, 3, 1024⟩, ([.isset 3, .accepted 1024, .set 1024] : List Event) ++ rest) := by
    rw [scan, dif_pos (by decide), hvisit]
    dsimp only
    rw [hlast]
  have hscan : scan sampleManyFiles (fun _ _ => cliReply) {3} 0 sampleCtx
      = (⟨{1024, 3}, 3, 1024⟩, ([.isset 0, .isset 1, .isset 2, .isset 3, .accepted 1024, .set 1024]
          : List Event) ++ rest) := by
    rw [scan_skip (by decide) (by decide), scan_skip (by decide) (by decide),
      scan_skip (by decide) (by decide), haccept]
    rfl
  have hrun : cliServerNonBlockingRun sampleManyFiles sampleCtx
      = some (⟨{1024, 3}, 3, 1024⟩, .selected {3} {3} ::
          (([.isset 0, .isset 1, .isset 2, .isset 3, .accepted 1024, .set 1024] : List Event)
            ++ rest)) := by
    have hpass : cliServerNonBlockingRun sampleManyFiles sampleCtx
        = some ((scan sampleManyFiles (fun _ _ => cliReply) {3} 0 sampleCtx).1,
            .selected {3} {3} :: (scan sampleManyFiles (fun _ _ => cliReply) {3} 0 sampleCtx).2) :=
      rfl
    rw [hpass, hscan]
  have hlegal : Legal 2048 sampleCtx.listener ∅ (.selected {3} {3} ::
      (([.isset 0, .isset 1, .isset 2, .isset 3, .accepted 1024, .set 1024] : List Event)
        ++ rest)) := by
    refine ⟨subset_rfl, legal_append.2 ⟨?_, legal_of_reply ?_ _ _ _⟩⟩
    · simp [Legal, Event.Allowed, sampleCtx, liveStep]
    · intro e he
      rw [hrest] at he
      obtain ⟨j, -, rfl⟩ := List.mem_map.1 he
      trivial
  have hin := h 2048 _ _ ⟨sampleInit, sampleCtx, _, _, hinit, .next .start (.run _ hrun) hlegal,
    rfl⟩
  exact absurd hin.fdmax (by decide)

end TcpSelect
