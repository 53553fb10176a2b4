/-
# Runs of a server, and what it does between two reads

A server (`Server`) takes its steps one after the other (`Runs`); what each step preserves
holds after a run (`Runs.tracks`) and in every reachable state (`Reachable.tracks`).  What a
server does for a client is what follows the `recv` of the client's data in the trace, up to
the next `recv` (`untilRecv`).  `EachRecv` says that all these pieces of a trace are as they
should be, each given the clients at that moment; it holds of a pass if it holds of the
replies (`Tracks.eachRecv_pass`), and of a run if it holds of each step (`Runs.eachRecv`).
-/
import LeakimMisc.SelectLoop

namespace TcpSelect

/-! ## Runs -/

/-- **A server**: how it starts and the steps that it takes, which keep track of the
clients. -/
structure Server where
  init : InitAnswers → Option (Ctx × List Event)
  step : Ctx → List Event → Ctx → Prop
  starts : ∀ {a ctx ev}, init a = some (ctx, ev) → Tracks ctx ∅ ∧ live ∅ ev = ∅
  keeps : ∀ {limit ctx s ev ctx'}, Tracks ctx s → step ctx ev ctx' →
    Legal limit ctx.listener s ev → Tracks ctx' (live s ev) ∧ ctx'.listener = ctx.listener

/-- Steps one after the other, from the state `ctx` with the clients `s`. -/
inductive Runs (S : Server) (limit : ℕ) (ctx : Ctx) (s : FdSet) : List Event → Ctx → Prop
  | start : Runs S limit ctx s [] ctx
  | next {ev ev' : List Event} {ctx' ctx'' : Ctx} (h : Runs S limit ctx s ev ctx')
      (hstep : S.step ctx' ev' ctx'') (hlegal : Legal limit ctx'.listener (live s ev) ev') :
      Runs S limit ctx s (ev ++ ev') ctx''

/-- **Runs keep the invariant.** -/
theorem Runs.tracks {S : Server} {limit : ℕ} {ctx ctx' : Ctx} {s : FdSet} {ev : List Event}
    (hinit : Tracks ctx s) (h : Runs S limit ctx s ev ctx') :
    Tracks ctx' (live s ev) ∧ ctx'.listener = ctx.listener := by
  induction h with
  | start => exact ⟨hinit, rfl⟩
  | next h hstep hlegal ih =>
    obtain ⟨htracks, hlistener⟩ := S.keeps ih.1 hstep hlegal
    rw [live_append]
    exact ⟨htracks, hlistener.trans ih.2⟩

/-- A state that the server reaches from its start, and the trace so far. -/
def Reachable (S : Server) (limit : ℕ) (ctx : Ctx) (tr : List Event) : Prop :=
  ∃ a ctx₀ ev₀ ev, S.init a = some (ctx₀, ev₀) ∧ Runs S limit ctx₀ ∅ ev ctx ∧ tr = ev₀ ++ ev

/-- **Reachable states keep the invariant.** -/
theorem Reachable.tracks {S : Server} {limit : ℕ} {ctx : Ctx} {tr : List Event}
    (h : Reachable S limit ctx tr) : Tracks ctx (live ∅ tr) := by
  obtain ⟨a, ctx₀, ev₀, ev, hinit, hruns, rfl⟩ := h
  obtain ⟨htracks, hlive⟩ := S.starts hinit
  rw [live_append, hlive]
  exact (hruns.tracks htracks).1

/-! ## What follows a read -/

/-- A call of `recv`. -/
def Event.isRecv : Event → Bool
  | .received _ _ => true
  | _ => false

/-- What a server does with data, other than asking for the members of a set. -/
def Event.IsOutput : Event → Prop
  | .command _ _ _ | .fault | .sent _ _ _ _ => True
  | _ => False

/-- What is done until the next `recv`. -/
def untilRecv (ev : List Event) : List Event := ev.takeWhile fun e => !e.isRecv

variable {β : Type*} {f : Event → Option β} {P : FdSet → ℕ → Recv → List β → Prop}

/-- **Every `recv`** is followed, up to the next one, by what `P` wants, given the clients
at that moment; `f` selects the events that matter. -/
def EachRecv (f : Event → Option β) (P : FdSet → ℕ → Recv → List β → Prop) :
    FdSet → List Event → Prop
  | _, [] => True
  | s, e :: ev =>
      (∀ i r, e = .received i r → P s i r ((untilRecv ev).filterMap f)) ∧
        EachRecv f P (liveStep s e) ev

/-- Before its first `recv` nothing that matters is done. -/
def QuietStart (f : Event → Option β) (ev : List Event) : Prop :=
  (untilRecv ev).filterMap f = []

theorem untilRecv_append (a : List Event) {b : List Event} (h : QuietStart f b) :
    (untilRecv (a ++ b)).filterMap f = (untilRecv a).filterMap f := by
  induction a with
  | nil => exact h
  | cons e a ih =>
    rw [List.cons_append]
    unfold untilRecv at ih ⊢
    rw [List.takeWhile_cons, List.takeWhile_cons]
    by_cases he : (!e.isRecv) = true
    · rw [if_pos he, if_pos he, List.filterMap_cons, List.filterMap_cons, ih]
    · rw [if_neg he, if_neg he]

theorem QuietStart.append {a b : List Event} (ha : QuietStart f a) (hb : QuietStart f b) :
    QuietStart f (a ++ b) := (untilRecv_append a hb).trans ha

theorem eachRecv_append (s : FdSet) (a : List Event) {b : List Event} (h : QuietStart f b) :
    EachRecv f P s (a ++ b) ↔ EachRecv f P s a ∧ EachRecv f P (live s a) b := by
  induction a generalizing s with
  | nil =>
    constructor
    · exact fun hb => ⟨trivial, hb⟩
    · exact fun hb => hb.2
  | cons e a ih =>
    rw [List.cons_append, EachRecv, EachRecv, untilRecv_append a h, ih, and_assoc]
    rfl

/-- `EachRecv` in a trace cut at a `recv`. -/
theorem EachRecv.at {s : FdSet} {pre post : List Event} {i : ℕ} {r : Recv}
    (h : EachRecv f P s (pre ++ .received i r :: post)) :
    P (live s pre) i r ((untilRecv post).filterMap f) := by
  induction pre generalizing s with
  | nil => exact h.1 i r rfl
  | cons e pre ih => exact ih h.2

theorem isRecv_of_reply {e : Event} (h : e.IsReply) : e.isRecv = false := by
  cases e <;> first | rfl | exact h.elim

/-- Replies contain no `recv`. -/
theorem untilRecv_of_reply {ev : List Event} (h : ∀ e ∈ ev, e.IsReply) : untilRecv ev = ev := by
  apply List.takeWhile_eq_self_iff.2
  intro e he
  rw [isRecv_of_reply (h e he)]
  rfl

theorem eachRecv_of_reply {ev : List Event} (h : ∀ e ∈ ev, e.IsReply) (s : FdSet) :
    EachRecv f P s ev := by
  induction ev generalizing s with
  | nil => trivial
  | cons e ev ih =>
    constructor
    · rintro i r rfl
      exact absurd (h _ List.mem_cons_self) id
    · exact ih (fun e' he' => h e' (List.mem_cons_of_mem _ he')) _

section Loop

variable {k : Answers} {reply : Ctx → ℕ → Chunk → List Event} {readFds : FdSet} {ctx : Ctx}
  {s : FdSet} {limit : ℕ}

/-- One turn of the loop begins with nothing that matters. -/
theorem quietStart_visit (hf : ∀ e, ¬ Event.IsOutput e → f e = none) (i : ℕ) :
    QuietStart f (visit k reply readFds i ctx).2 := by
  have hstep := visited k reply readFds i ctx
  generalize visit k reply readFds i ctx = r at hstep
  have hisset : f (.isset i) = none := hf _ id
  cases hstep with
  | skip h => exact List.filterMap_cons_none hisset
  | acceptFailed h hl =>
    have hacc : f .acceptFailed = none := hf _ id
    simp [QuietStart, untilRecv, Event.isRecv, hisset, hacc]
  | accepted newfd h hl hk =>
    have hacc : f (.accepted newfd) = none := hf _ id
    have hset : f (.set newfd) = none := hf _ id
    simp [QuietStart, untilRecv, Event.isRecv, hisset, hacc, hset]
  | data c h hl hk => exact List.filterMap_cons_none hisset
  | closed r h hl hr hk => exact List.filterMap_cons_none hisset

/-- One turn of the loop: what matters is the reply to the data that it reads. -/
theorem eachRecv_visit (hf : ∀ e, ¬ Event.IsOutput e → f e = none)
    (hreply : ∀ ctx i c, ∀ e ∈ reply ctx i c, e.IsReply) {i : ℕ}
    (hdata : ∀ c, P s i (.data c) ((reply ctx i c).filterMap f))
    (hend : ∀ r, (∀ c, r ≠ .data c) → P s i r []) :
    EachRecv f P s (visit k reply readFds i ctx).2 := by
  have hstep := visited k reply readFds i ctx
  generalize visit k reply readFds i ctx = r at hstep
  cases hstep with
  | data c h hl hk =>
    refine ⟨by simp, ?_, eachRecv_of_reply (hreply ctx i c) _⟩
    rintro i' r' heq
    obtain ⟨rfl, rfl⟩ := Event.received.inj heq
    rw [untilRecv_of_reply (hreply ctx i c)]
    exact hdata c
  | closed r h hl hr hk =>
    refine ⟨by simp, ?_, by simp [EachRecv]⟩
    rintro i' r' heq
    obtain ⟨rfl, rfl⟩ := Event.received.inj heq
    have hclosed : f (.closed i) = none := hf _ id
    have hclr : f (.clr i) = none := hf _ id
    have hnil : (untilRecv [.closed i, .clr i]).filterMap f = [] := by
      simp [untilRecv, Event.isRecv, hclosed, hclr]
    rw [hnil]
    exact hend r hr
  | _ => simp [EachRecv]

/-- **The loop**: after each `recv` what matters is the reply to its data. -/
theorem Tracks.eachRecv_scan (hf : ∀ e, ¬ Event.IsOutput e → f e = none)
    (hreply : ∀ ctx i c, ∀ e ∈ reply ctx i c, e.IsReply)
    (hdata : ∀ ctx s i c, Tracks ctx s → P s i (.data c) ((reply ctx i c).filterMap f))
    (hend : ∀ s i r, (∀ c, r ≠ .data c) → P s i r []) (h : Tracks ctx s) (i : ℕ)
    (hlegal : Legal limit ctx.listener s (scan k reply readFds i ctx).2) :
    EachRecv f P s (scan k reply readFds i ctx).2 ∧
      QuietStart f (scan k reply readFds i ctx).2 := by
  fun_induction scan k reply readFds i ctx generalizing s with
  | case1 i ctx hi r rest =>
    rename_i ih
    obtain ⟨hfirst, hlater⟩ := legal_append.1 hlegal
    have hrest : EachRecv f P (live s r.2) rest.2 ∧ QuietStart f rest.2 := by
      apply ih (h.after_visit hreply i hfirst)
      rw [show r.1.listener = ctx.listener from visit_listener i]
      exact hlater
    have hvisit : EachRecv f P s r.2 :=
      eachRecv_visit hf hreply (fun c => hdata ctx s i c h) (hend s i)
    -- the next turn starts with nothing that matters, so it adds nothing to this reply
    have hquiet : QuietStart f r.2 := quietStart_visit hf i
    exact ⟨(eachRecv_append s r.2 hrest.2).2 ⟨hvisit, hrest.1⟩, hquiet.append hrest.2⟩
  | case2 i ctx hi => exact ⟨trivial, rfl⟩

/-- **A pass**: after each `recv` what matters is the reply to its data. -/
theorem Tracks.eachRecv_pass (hf : ∀ e, ¬ Event.IsOutput e → f e = none)
    (hreply : ∀ ctx i c, ∀ e ∈ reply ctx i c, e.IsReply)
    (hdata : ∀ ctx s i c, Tracks ctx s → P s i (.data c) ((reply ctx i c).filterMap f))
    (hend : ∀ s i r, (∀ c, r ≠ .data c) → P s i r []) (h : Tracks ctx s) {ctx' : Ctx}
    {ev : List Event} (hpass : pass k reply ctx = some (ctx', ev))
    (hlegal : Legal limit ctx.listener s ev) :
    EachRecv f P s ev ∧ QuietStart f ev := by
  obtain ⟨ready, -, heq⟩ := Option.map_eq_some_iff.1 hpass
  obtain ⟨rfl, rfl⟩ := Prod.mk.inj heq
  obtain ⟨heach, hquiet⟩ := h.eachRecv_scan hf hreply hdata hend 0 hlegal.2
  refine ⟨⟨by simp, heach⟩, ?_⟩
  have hselected : f (.selected ctx.master ready) = none := hf _ id
  exact (List.filterMap_cons_none hselected).trans hquiet

end Loop

/-- **Runs**: `EachRecv` holds if it holds of each step. -/
theorem Runs.eachRecv {S : Server} {limit : ℕ} {ctx ctx' : Ctx} {s : FdSet} {ev : List Event}
    (hstep : ∀ ctx s ev ctx', Tracks ctx s → S.step ctx ev ctx' →
      Legal limit ctx.listener s ev → EachRecv f P s ev ∧ QuietStart f ev)
    (hinit : Tracks ctx s) (h : Runs S limit ctx s ev ctx') : EachRecv f P s ev := by
  induction h with
  | start => trivial
  | next h hnext hlegal ih =>
    obtain ⟨heach, hquiet⟩ := hstep _ _ _ _ (h.tracks hinit).1 hnext hlegal
    exact (eachRecv_append s _ hquiet).2 ⟨ih, heach⟩

/-! ## One client -/

/-- The data of an event, if it comes from the client `i`. -/
def Event.chunk (i : ℕ) : Event → Option Chunk
  | .received fd (.data c) => if fd = i then some c else none
  | _ => none

/-- **The chunks** in which the client `i` was read. -/
def chunks (i : ℕ) (ev : List Event) : List Chunk := ev.filterMap (Event.chunk i)

/-- **What is done for the client `i`**: what follows each `recv` of its data, up to the
next `recv`. -/
def repliesTo (f : Event → Option β) (i : ℕ) : List Event → List β
  | [] => []
  | e :: ev =>
      (if (e.chunk i).isSome then (untilRecv ev).filterMap f else []) ++ repliesTo f i ev

/-- **The replies to a client** are put together from the replies to its chunks, as long as
the clients keep a property `Q`. -/
theorem EachRecv.repliesTo_eq {g : Chunk → List β} (Q : FdSet → Prop) {i : ℕ} {s : FdSet}
    {ev : List Event} (h : EachRecv f P s ev) (hs : Q s)
    (hkeep : ∀ e ∈ ev, ∀ s, Q s → Q (liveStep s e))
    (hP : ∀ s c block, Q s → P s i (.data c) block → block = g c) :
    repliesTo f i ev = (chunks i ev).flatMap g := by
  induction ev generalizing s with
  | nil => rfl
  | cons e ev ih =>
    obtain ⟨hfirst, hrest⟩ := h
    have hlater : repliesTo f i ev = (chunks i ev).flatMap g :=
      ih hrest (hkeep e List.mem_cons_self s hs)
        fun e' he' => hkeep e' (List.mem_cons_of_mem _ he')
    rw [repliesTo, hlater]
    cases hchunk : e.chunk i with
    | none =>
      have hskip : chunks i (e :: ev) = chunks i ev := List.filterMap_cons_none hchunk
      rw [hskip]
      rfl
    | some c =>
      have hcons : chunks i (e :: ev) = c :: chunks i ev := List.filterMap_cons_some hchunk
      obtain rfl : e = .received i (.data c) := by
        unfold Event.chunk at hchunk
        split at hchunk
        · split_ifs at hchunk with hfd
          rw [hfd, Option.some.inj hchunk]
        · exact absurd hchunk (by simp)
      rw [hcons, List.flatMap_cons, ← hP s c _ hs (hfirst i _ rfl)]
      rfl

end TcpSelect
