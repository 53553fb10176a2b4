/-
# The commands of the command server

What `pars_incomming_data` calls the callback with, for memory that ends with a zero:
the complete lines that are not empty, each up to its first zero, and then the last line,
empty or not (`parsIncommingData_eq`).  The caller puts the zero on the last byte of what it
read, so a command arrives whole exactly if no read ends inside it
(`callbacks_eq_iff`); and only an empty last line makes a callback (`callsLines_iff`).
-/
import LeakimMisc.CliServer
import LeakimMisc.ListPieces

open Pieces

namespace TcpSelect

/-! ## Lines -/

/-- The text at the start of some memory: up to the first zero. -/
def cstr (mem : List UInt8) : List UInt8 := mem.takeWhile fun b => b ≠ 0

theorem strlen_eq {mem : List UInt8} {p : ℕ} (h : 0 ∈ mem.drop p) :
    strlen mem p = some (cstr (mem.drop p)).length := by
  unfold strlen cstr
  generalize mem.drop p = m at h
  induction m with
  | nil => exact absurd h List.not_mem_nil
  | cons b m ih =>
    rw [List.findIdx?_cons, List.takeWhile_cons]
    by_cases hb : b = 0
    · simp [hb]
    · have hm : 0 ∈ m := (List.mem_cons.1 h).resolve_left (Ne.symm hb)
      rw [ih hm]
      simp [hb]

theorem callback_eq (mem : List UInt8) (p : ℕ) :
    callback mem p (cstr (mem.drop p)).length
      = .command p (cstr (mem.drop p)).length (cstr (mem.drop p)) := by
  unfold callback cstr
  rw [List.takeWhile_eq_take_findIdx_not]
  simp

/-- A zero ends the text. -/
theorem cstr_append_zero (l rest : List UInt8) : cstr (l ++ 0 :: rest) = cstr l := by
  induction l with
  | nil => rfl
  | cons b l ih =>
    unfold cstr at ih ⊢
    rw [List.cons_append, List.takeWhile_cons, List.takeWhile_cons, ih]

theorem cstr_of_not_mem {l : List UInt8} (h : 0 ∉ l) : cstr l = l := by
  apply List.takeWhile_eq_self_iff.2
  intro b hb
  simpa using ne_of_mem_of_not_mem hb h

theorem map_cstr {ls : List (List UInt8)} (h : ∀ l ∈ ls, 0 ∉ l) : ls.map cstr = ls := by
  conv_rhs => rw [← List.map_id ls]
  apply List.map_congr_left
  intro l hl
  exact cstr_of_not_mem (h l hl)

/-! ## The callbacks -/

/-- The callbacks for complete lines, of which the first begins at `i`. -/
def lineCalls : ℕ → List (List UInt8) → List Event
  | _, [] => []
  | i, l :: ls =>
      (if (cstr l).length > 0 then [.command i (cstr l).length (cstr l)] else [])
        ++ lineCalls (i + l.length + 1) ls

/-- `in[j] = 0` at every newline. -/
def nulNewlines (mem : List UInt8) : List UInt8 := mem.map fun b => if b = 10 then 0 else b

theorem nulNewlines_append (a b : List UInt8) :
    nulNewlines (a ++ b) = nulNewlines a ++ nulNewlines b := List.map_append

theorem nulNewlines_of_not_mem {l : List UInt8} (h : 10 ∉ l) : nulNewlines l = l := by
  unfold nulNewlines
  conv_rhs => rw [← List.map_id l]
  apply List.map_congr_left
  intro b hb
  rw [if_neg (ne_of_mem_of_not_mem hb h)]
  rfl

/-- The text that is found where a zero was put behind it, and its callback. -/
theorem strlen_callback_of_drop {mem s rest : List UInt8} {i : ℕ}
    (hdrop : mem.drop i = s ++ 0 :: rest) :
    strlen mem i = some (cstr s).length ∧
      callback mem i (cstr s).length = .command i (cstr s).length (cstr s) := by
  have hcb := callback_eq mem i
  rw [hdrop, cstr_append_zero] at hcb
  refine ⟨?_, hcb⟩
  rw [strlen_eq (by rw [hdrop]; simp), hdrop, cstr_append_zero]

/-- **The loop**: in the middle of a line that began at `i = done.length` with `seg`, it
calls back for the lines that are completed and stops at the start of the last one. -/
theorem parsLoop_eq {rest : List UInt8} {done seg l : List UInt8} {ls : List (List UInt8)}
    {i j n : ℕ} (hi : i = done.length) (hj : j = done.length + seg.length)
    (hn : n = rest.length) (hseg : 10 ∉ seg) (h : (seg ++ rest).splitOn 10 = ls ++ [l]) :
    parsLoop n i j (done ++ seg ++ rest)
      = some (done.length + (seg ++ rest).length - l.length,
          done ++ nulNewlines (seg ++ rest), lineCalls i ls) := by
  induction rest generalizing done seg ls i j n with
  | nil =>
    simp only [List.append_nil] at h ⊢
    rw [List.splitOn_eq_singleton hseg] at h
    obtain ⟨rfl, rfl⟩ := singleton_eq_concat h
    rw [hn, nulNewlines_of_not_mem hseg, hi]
    show some (done.length, done ++ l, _) = _
    rw [Nat.add_sub_cancel]
    rfl
  | cons b rest ih =>
    rw [hn, List.length_cons, parsLoop]
    have hget : (done ++ seg ++ b :: rest)[j]? = some b := by
      rw [hj, ← List.length_append, List.getElem?_append_right le_rfl, Nat.sub_self]
      rfl
    rw [hget]
    dsimp only
    by_cases hb : b = 10
    · -- the line is complete: its text is `seg` up to the first zero
      subst hb
      have hset : (done ++ seg ++ 10 :: rest).set j 0 = done ++ (seg ++ 0 :: rest) := by
        rw [hj, ← List.length_append, List.set_append_right _ _ le_rfl, Nat.sub_self,
          List.append_assoc]
        rfl
      have hdrop : (done ++ (seg ++ 0 :: rest)).drop i = seg ++ 0 :: rest := by
        rw [hi, List.drop_left]
      obtain ⟨hlen, hcall⟩ := strlen_callback_of_drop hdrop
      rw [List.splitOn_append_cons_self_of_not_mem hseg] at h
      obtain ⟨ls', rfl, hls⟩ : ∃ ls', ls = seg :: ls' ∧ rest.splitOn 10 = ls' ++ [l] := by
        cases ls with
        | nil =>
          obtain ⟨-, hnil⟩ := List.cons.inj h
          exact absurd hnil (List.splitOn_ne_nil 10 rest)
        | cons first ls' =>
          obtain ⟨hfirst, hrest⟩ := List.cons.inj h
          exact ⟨ls', by rw [hfirst], hrest⟩
      have hloop : parsLoop rest.length (j + 1) (j + 1) (done ++ seg ++ [0] ++ [] ++ rest)
          = some ((done ++ seg ++ [0]).length + rest.length - l.length,
              done ++ seg ++ [0] ++ nulNewlines rest, lineCalls (j + 1) ls') := by
        have hdone : j + 1 = (done ++ seg ++ [0]).length := by
          rw [hj, List.length_append, List.length_append, List.length_singleton]
        exact ih hdone hdone rfl List.not_mem_nil hls
      have hmem : done ++ (seg ++ 0 :: rest) = done ++ seg ++ [0] ++ [] ++ rest := by simp
      rw [if_pos rfl, hset, hlen]
      dsimp only
      rw [hmem, hloop, ← hmem, Option.map_some, hcall]
      have hstart : (done ++ seg ++ [0]).length + rest.length - l.length
          = done.length + (seg ++ 10 :: rest).length - l.length := by
        simp only [List.length_append, List.length_cons, List.length_nil]
        omega
      have hnul : done ++ seg ++ [0] ++ nulNewlines rest
          = done ++ nulNewlines (seg ++ 10 :: rest) := by
        rw [nulNewlines_append, nulNewlines_of_not_mem hseg]
        simp [nulNewlines]
      rw [hstart, hnul, lineCalls, hi, hj]
    · -- the line goes on
      have hmem : done ++ seg ++ b :: rest = done ++ (seg ++ [b]) ++ rest := by simp
      have hseg' : 10 ∉ seg ++ [b] := by
        rw [List.mem_append, List.mem_singleton]
        rintro (hmem | rfl)
        · exact hseg hmem
        · exact hb rfl
      have hj' : j + 1 = done.length + (seg ++ [b]).length := by
        rw [hj, List.length_append, List.length_singleton, Nat.add_assoc]
      have happend : seg ++ b :: rest = seg ++ [b] ++ rest := by simp
      rw [happend] at h
      rw [if_neg hb, hmem, happend]
      exact ih hi hj' rfl hseg' h

/-- **What `pars_incomming_data` does** with memory that ends with a zero: it calls back for
the complete lines and then for the last one. -/
theorem parsIncommingData_eq {t l : List UInt8} {ls : List (List UInt8)}
    (h : t.splitOn 10 = ls ++ [l]) :
    parsIncommingData (t ++ [0]) (t.length + 1)
      = some (nulNewlines (t ++ [0]), lineCalls 0 ls ++
          [.command (t.length - l.length) (cstr l).length (cstr l)]) := by
  have hlines : (t ++ [0]).splitOn 10 = ls ++ [l ++ [0]] := splitOn_concat (by decide) h
  have hlast : l ++ [0] <:+ t ++ [0] := suffix_of_splitOn hlines
  have hloop : parsLoop (t.length + 1) 0 0 (t ++ [0])
      = some (t.length - l.length, nulNewlines (t ++ [0]), lineCalls 0 ls) := by
    have hloop' : parsLoop (t.length + 1) 0 0 ([] ++ [] ++ (t ++ [0]))
        = some (0 + ([] ++ (t ++ [0])).length - (l ++ [0]).length,
            [] ++ nulNewlines ([] ++ (t ++ [0])), lineCalls 0 ls) :=
      parsLoop_eq rfl rfl (by simp) List.not_mem_nil hlines
    simpa using hloop'
  have hdrop : (nulNewlines (t ++ [0])).drop (t.length - l.length) = l ++ [0] := by
    -- the last line contains no newline
    have hno : 10 ∉ l ++ [0] := by
      intro hmem
      have hpart : l ++ [0] ∈ (t ++ [0]).splitOn 10 := by
        rw [hlines]
        exact List.mem_append_right _ List.mem_cons_self
      exact (mem_of_mem_splitOn hpart hmem).2 rfl
    obtain ⟨before, hbefore⟩ := hlast
    have hlength : t.length - l.length = (nulNewlines before).length := by
      have hlen := congrArg List.length hbefore
      simp only [List.length_append, List.length_singleton] at hlen
      rw [nulNewlines, List.length_map]
      omega
    rw [← hbefore, hlength, nulNewlines_append, List.drop_left]
    exact nulNewlines_of_not_mem hno
  obtain ⟨hlen, hcall⟩ := strlen_callback_of_drop hdrop
  have hi : t.length - l.length ≠ t.length + 1 := by omega
  unfold parsIncommingData
  rw [hloop]
  dsimp only
  rw [if_pos hi, hlen]
  dsimp only
  rw [if_pos (Nat.succ_pos _), hcall]

/-! ## One read -/

/-- The text and the length in a callback. -/
def Event.callback : Event → Option (List UInt8 × ℕ)
  | .command _ len text => some (text, len)
  | _ => none

/-- A text with its length. -/
def withLength (t : List UInt8) : List UInt8 × ℕ := (t, t.length)

theorem callbacks_lineCalls (i : ℕ) (ls : List (List UInt8)) :
    (lineCalls i ls).filterMap Event.callback
      = ((ls.map cstr).filter fun t => t ≠ []).map withLength := by
  induction ls generalizing i with
  | nil => rfl
  | cons l ls ih =>
    rw [lineCalls, List.filterMap_append, ih, List.map_cons, List.filter_cons]
    by_cases hl : cstr l = []
    · simp [hl]
    · have hpos : (cstr l).length > 0 := List.length_pos_iff.2 hl
      rw [if_pos hpos, if_pos (by simpa using hl)]
      rfl

/-- **The callbacks for one read**: the lines in front of its last byte, without the empty
ones, and then the last line, empty or not. -/
theorem callbacks_cliReply {c : Chunk} {ls : List (List UInt8)} {l : List UInt8}
    (h : c.bytes.dropLast.splitOn 10 = ls ++ [l]) :
    (cliReply c).filterMap Event.callback
      = (((ls.map cstr).filter fun t => t ≠ []) ++ [cstr l]).map withLength := by
  have hlen : c.bytes.length = c.bytes.dropLast.length + 1 := by
    have hpos := c.pos
    rw [List.length_dropLast]
    omega
  unfold cliReply
  rw [c.buf_eq, hlen, parsIncommingData_eq h]
  dsimp only
  rw [List.filterMap_append, callbacks_lineCalls, List.map_append]
  rfl

/-- Lines without zeros arrive whole. -/
theorem callbacks_of_not_mem_zero {c : Chunk} {ls : List (List UInt8)} {l : List UInt8}
    (h : c.bytes.dropLast.splitOn 10 = ls ++ [l]) (hzero : ∀ t ∈ ls ++ [l], 0 ∉ t) :
    (cliReply c).filterMap Event.callback
      = ((ls.filter fun t => t ≠ []) ++ [l]).map withLength := by
  have hmap : ls.map cstr = ls := map_cstr fun t ht => hzero t (List.mem_append_left _ ht)
  have hlast : cstr l = l := cstr_of_not_mem (hzero l (List.mem_append_right _ List.mem_cons_self))
  rw [callbacks_cliReply h, hmap, hlast]

theorem zero_not_mem_of_mem_splitOn {c : Chunk} (h : 0 ∉ c.bytes) :
    ∀ t ∈ c.bytes.dropLast.splitOn 10, 0 ∉ t := by
  intro t ht hmem
  exact h (List.mem_of_mem_dropLast (mem_of_mem_splitOn ht hmem).1)

/-- The texts of the callbacks for one read without zeros hold its bytes, without the
newlines and without the last byte. -/
theorem flatten_callbacks {c : Chunk} (h : 0 ∉ c.bytes) :
    ((cliReply c).filterMap Event.callback).flatMap Prod.fst
      = c.bytes.dropLast.filter fun b => b ≠ 10 := by
  obtain ⟨ls, l, hlines⟩ := exists_splitOn_eq 10 c.bytes.dropLast
  have hzero : ∀ t ∈ ls ++ [l], 0 ∉ t := by
    rw [← hlines]
    exact zero_not_mem_of_mem_splitOn h
  have hbytes : (c.bytes.dropLast.filter fun b => b ≠ 10) = ls.flatten ++ l := by
    rw [← flatten_splitOn, hlines, List.flatten_append, List.flatten_singleton]
  rw [callbacks_of_not_mem_zero hlines hzero, hbytes, List.flatMap_map]
  show ((ls.filter fun t => t ≠ []) ++ [l]).flatMap id = _
  rw [List.flatMap_id, List.flatten_append, List.flatten_filter_ne_nil, List.flatten_singleton]

/-- The callbacks for one read that ends with a newline and has no empty line and no zero:
its lines. -/
theorem callbacks_of_lines {c : Chunk} {t : List UInt8} (hc : c.bytes = t ++ [10])
    (h : ∀ l ∈ t.splitOn 10, l ≠ [] ∧ 0 ∉ l) :
    (cliReply c).filterMap Event.callback = (t.splitOn 10).map withLength := by
  obtain ⟨ls, l, hlines⟩ := exists_splitOn_eq 10 t
  rw [hlines] at h ⊢
  have hfilter : (ls.filter fun x => x ≠ []) = ls := by
    apply List.filter_eq_self.2
    intro x hx
    simpa using (h x (List.mem_append_left _ hx)).1
  have hdrop : c.bytes.dropLast.splitOn 10 = ls ++ [l] := by
    rw [hc, List.dropLast_concat, hlines]
  rw [callbacks_of_not_mem_zero hdrop fun x hx => (h x hx).2, hfilter]

/-! ## A stream of commands -/

/-- A command that a client can send. -/
structure IsCommand (t : List UInt8) : Prop where
  ne_nil : t ≠ []
  zero : 0 ∉ t
  newline : 10 ∉ t

/-- The stream of the commands `cmds`, each ended by a newline. -/
def streamOf (cmds : List (List UInt8)) : List UInt8 := cmds.flatMap fun t => t ++ [10]

theorem splitOn_streamOf (ts : List (List UInt8)) :
    (streamOf ts).splitOn 10 = ts.flatMap (fun t => t.splitOn 10) ++ [[]] := by
  induction ts with
  | nil => rfl
  | cons t ts ih =>
    have hcons : streamOf (t :: ts) = t ++ 10 :: streamOf ts := by
      simp [streamOf]
    rw [hcons, List.splitOn_append_cons_self, ih, List.flatMap_cons, List.append_assoc]

theorem flatMap_splitOn_of_isCommand {cmds : List (List UInt8)}
    (h : ∀ t ∈ cmds, IsCommand t) : cmds.flatMap (fun t => t.splitOn 10) = cmds := by
  induction cmds with
  | nil => rfl
  | cons t cmds ih =>
    have ht : t.splitOn 10 = [t] := List.splitOn_eq_singleton (h t List.mem_cons_self).newline
    rw [List.flatMap_cons, ht, ih fun x hx => h x (List.mem_cons_of_mem _ hx)]
    rfl

theorem filter_streamOf {cmds : List (List UInt8)} (h : ∀ t ∈ cmds, IsCommand t) :
    ((streamOf cmds).filter fun b => b ≠ 10) = cmds.flatten := by
  rw [← flatten_splitOn, splitOn_streamOf, flatMap_splitOn_of_isCommand h, List.flatten_append]
  simp

/-- A read whose last byte is not a newline loses that byte. -/
theorem getLast_of_filter_eq {l : List UInt8} (hne : l ≠ [])
    (h : (l.dropLast.filter fun b => b ≠ 10) = l.filter fun b => b ≠ 10) :
    l.getLast? = some 10 := by
  obtain ⟨init, b, rfl⟩ : ∃ init b, l = init ++ [b] :=
    ⟨_, _, (List.dropLast_append_getLast hne).symm⟩
  rw [List.dropLast_concat, List.filter_append] at h
  have hnil : ([b].filter fun b => b ≠ 10) = [] := List.self_eq_append_right.1 h
  have hb : b = 10 := by simpa using hnil
  rw [List.getLast?_concat, hb]

/-- **The callbacks for a stream of commands** that was read in the chunks `cs` are the
commands exactly if every chunk ends with a newline. -/
theorem callbacks_chunks_iff {cs : List Chunk} {cmds : List (List UInt8)}
    (hcmds : ∀ t ∈ cmds, IsCommand t) (hstream : cs.flatMap Chunk.bytes = streamOf cmds) :
    cs.flatMap (fun c => (cliReply c).filterMap Event.callback) = cmds.map withLength ↔
      ∀ c ∈ cs, c.bytes.getLast? = some 10 := by
  constructor
  · -- every byte of the commands is in a callback, so no read may lose one
    intro h
    have hzero : ∀ c ∈ cs, 0 ∉ c.bytes := by
      intro c hc hmem
      have hin : (0 : UInt8) ∈ streamOf cmds := by
        rw [← hstream]
        exact List.mem_flatMap.2 ⟨c, hc, hmem⟩
      obtain ⟨t, ht, hmem⟩ := List.mem_flatMap.1 hin
      rcases List.mem_append.1 hmem with hmem | hmem
      · exact (hcmds t ht).zero hmem
      · exact absurd (List.mem_singleton.1 hmem) (by decide)
    have htexts : (cs.flatMap fun c => c.bytes.dropLast.filter fun b => b ≠ 10)
        = cs.flatMap fun c => c.bytes.filter fun b => b ≠ 10 := by
      calc (cs.flatMap fun c => c.bytes.dropLast.filter fun b => b ≠ 10)
          = (cs.flatMap fun c => (cliReply c).filterMap Event.callback).flatMap Prod.fst := by
            rw [List.flatMap_assoc]
            exact List.flatMap_congr fun c hc => (flatten_callbacks (hzero c hc)).symm
        _ = cmds.flatten := by
            rw [h, List.flatMap_map]
            exact List.flatMap_id
        _ = (cs.flatMap Chunk.bytes).filter fun b => b ≠ 10 := by
            rw [hstream, filter_streamOf hcmds]
        _ = cs.flatMap fun c => c.bytes.filter fun b => b ≠ 10 := by
            rw [List.filter_flatMap]
    have heq := eq_of_flatMap_eq (fun c _ => ((List.dropLast_sublist _).filter _).length_le) htexts
    intro c hc
    exact getLast_of_filter_eq c.bytes_ne_nil (heq c hc)
  · -- cut at the newlines, the chunks are the commands
    intro h
    have hbytes : ∀ c ∈ cs, c.bytes = c.bytes.dropLast ++ [10] := by
      intro c hc
      rw [← List.dropLast_append_getLast? 10 (h c hc)]
      simp
    have hlines : (cs.flatMap fun c => c.bytes.dropLast.splitOn 10) = cmds := by
      have hstream' : streamOf (cs.map fun c => c.bytes.dropLast) = streamOf cmds := by
        rw [← hstream, streamOf, List.flatMap_map]
        exact List.flatMap_congr fun c hc => (hbytes c hc).symm
      have hcut := congrArg (List.splitOn 10) hstream'
      rw [splitOn_streamOf, splitOn_streamOf, flatMap_splitOn_of_isCommand hcmds,
        List.flatMap_map] at hcut
      exact List.append_cancel_right hcut
    have hpart : ∀ c ∈ cs, (cliReply c).filterMap Event.callback
        = (c.bytes.dropLast.splitOn 10).map withLength := by
      intro c hc
      apply callbacks_of_lines (hbytes c hc)
      intro l hl
      have hmem : l ∈ cmds := by
        rw [← hlines]
        exact List.mem_flatMap.2 ⟨c, hc, hl⟩
      exact ⟨(hcmds l hmem).ne_nil, (hcmds l hmem).zero⟩
    rw [List.flatMap_congr hpart, ← List.map_flatMap, hlines]

/-! ## The callbacks of a run -/

/-- The callbacks for the client `i`, in order. -/
def callbacks (i : ℕ) (ev : List Event) : List (List UInt8 × ℕ) :=
  repliesTo Event.callback i ev

/-- A call of the server: after each `recv` come the callbacks for its data. -/
theorem eachRecv_cliStep {limit : ℕ} {ctx ctx' : Ctx} {s : FdSet} {ev : List Event}
    (h : Tracks ctx s) (hstep : CliStep ctx ev ctx') (hlegal : Legal limit ctx.listener s ev) :
    EachRecv Event.callback
        (fun _ _ r block => ∀ c, r = .data c → block = (cliReply c).filterMap Event.callback)
        s ev ∧
      QuietStart Event.callback ev := by
  have hf : ∀ e, ¬ Event.IsOutput e → e.callback = none := by
    intro e he
    cases e <;> first | rfl | exact absurd trivial he
  cases hstep with
  | run k hrun =>
    refine h.eachRecv_pass hf (fun _ _ => isReply_cliReply) ?_ ?_ hrun hlegal
    · rintro ctx s i c - c' heq
      rw [Recv.data.inj heq]
    · rintro s i r hr c rfl
      exact absurd rfl (hr c)
  | send buf nbytes ok =>
    -- `cli_server_send` neither reads nor calls back
    have hreply : ∀ e ∈ broadcast ctx (fun j => j ≠ ctx.listener) buf nbytes ok, e.IsReply :=
      fun e he => isReply_broadcast he
    refine ⟨eachRecv_of_reply hreply s, ?_⟩
    unfold QuietStart cliServerSend
    rw [untilRecv_of_reply hreply]
    apply List.filterMap_eq_nil_iff.2
    intro e he
    rcases mem_broadcast he with ⟨j, rfl⟩ | ⟨j, b, rfl⟩ <;> rfl

/-- The callbacks for a client are those for the chunks in which it was read. -/
theorem callbacks_eq {limit : ℕ} {ctx ctx' : Ctx} {s : FdSet} {ev : List Event}
    (h : Tracks ctx s) (hruns : Runs cliServer limit ctx s ev ctx') (i : ℕ) :
    callbacks i ev
      = (chunks i ev).flatMap fun c => (cliReply c).filterMap Event.callback := by
  have heach := hruns.eachRecv (fun _ _ _ _ => eachRecv_cliStep) h
  exact heach.repliesTo_eq (fun _ => True) trivial (fun _ _ _ _ => trivial)
    fun s c block _ hblock => hblock c rfl

/-- **When commands arrive whole.**  In any sequence of calls, from any reachable state, in
which a client sends a stream of commands: the callbacks for the client are the commands, in
order, each with its text and its length, exactly if each `recv` ends where a command
ends. -/
theorem callbacks_eq_iff {ctx ctx' : Ctx} {tr ev : List Event}
    (h : Reachable cliServer fdSetsize ctx tr)
    (hruns : Runs cliServer fdSetsize ctx (live ∅ tr) ev ctx') (i : ℕ)
    {cmds : List (List UInt8)} (hcmds : ∀ t ∈ cmds, IsCommand t)
    (hstream : (chunks i ev).flatMap Chunk.bytes = streamOf cmds) :
    callbacks i ev = cmds.map withLength ↔ ∀ c ∈ chunks i ev, c.bytes.getLast? = some 10 := by
  rw [callbacks_eq h.tracks hruns i]
  exact callbacks_chunks_iff hcmds hstream

/-- The bytes of `shutdown`. -/
def sampleCommand : List UInt8 := [115, 104, 117, 116, 100, 111, 119, 110]

theorem isCommand_sampleCommand : ∀ t ∈ [sampleCommand], IsCommand t := by
  intro t ht
  rw [List.mem_singleton.1 ht]
  exact ⟨by decide, by decide, by decide⟩

/-- The command in one piece. -/
def sampleWhole : Chunk := ⟨sampleCommand ++ [10], by decide, by decide⟩

/-- The rest of the command, after `shut`. -/
def sampleDown : Chunk := ⟨[100, 111, 119, 110, 10], by decide, by decide⟩

/-- A command in one piece arrives whole. -/
theorem callbacks_sampleWhole :
    callbacks 4 (sampleReadEvents sampleWhole) = [withLength sampleCommand] := by
  have hrun : CliStep sampleConnected (sampleReadEvents sampleWhole) sampleConnected :=
    .run (sampleRead sampleWhole) (by decide +kernel)
  have hruns : Runs cliServer fdSetsize sampleConnected (live ∅ sampleTrace)
      ([] ++ sampleReadEvents sampleWhole) sampleConnected :=
    .next .start hrun (legal_sampleReadEvents _ _)
  exact (callbacks_eq_iff reachable_sampleConnected hruns 4 isCommand_sampleCommand
    (by decide +kernel)).2 (by decide +kernel)

/-- A command in two pieces does not: `shut` and then the rest with its newline give the
callbacks `shu` and `down`. -/
theorem not_callbacks_eq :
    ¬ ∀ (ctx ctx' : Ctx) (tr ev : List Event), Reachable cliServer fdSetsize ctx tr →
      Runs cliServer fdSetsize ctx (live ∅ tr) ev ctx' →
        ∀ (i : ℕ) (cmds : List (List UInt8)), (∀ t ∈ cmds, IsCommand t) →
          (chunks i ev).flatMap Chunk.bytes = streamOf cmds →
            callbacks i ev = cmds.map withLength := by
  intro h
  have hshut : CliStep sampleConnected (sampleReadEvents sampleShut) sampleConnected :=
    .run (sampleRead sampleShut) (by decide +kernel)
  have hdown : CliStep sampleConnected (sampleReadEvents sampleDown) sampleConnected :=
    .run (sampleRead sampleDown) (by decide +kernel)
  have hruns : Runs cliServer fdSetsize sampleConnected (live ∅ sampleTrace)
      ([] ++ sampleReadEvents sampleShut ++ sampleReadEvents sampleDown) sampleConnected :=
    .next (.next .start hshut (legal_sampleReadEvents _ _)) hdown (legal_sampleReadEvents _ _)
  have hwhole := h _ _ _ _ reachable_sampleConnected hruns 4 [sampleCommand]
    isCommand_sampleCommand (by decide +kernel)
  exact absurd hwhole (by decide +kernel)

/-! ## Empty lines -/

/-- The lines of some bytes that are not empty. -/
def nonEmptyLines (bytes : List UInt8) : List (List UInt8) :=
  (bytes.splitOn 10).filter fun l => l ≠ []

/-- The callbacks are the lines of the chunk that are not empty, in order, each with its text
and its length, and so none has the length zero. -/
def CallsLines (c : Chunk) (calls : List (List UInt8 × ℕ)) : Prop :=
  calls = (nonEmptyLines c.bytes).map withLength ∧ ∀ call ∈ calls, call.2 ≠ 0

instance (c : Chunk) (calls : List (List UInt8 × ℕ)) : Decidable (CallsLines c calls) :=
  inferInstanceAs (Decidable (_ ∧ _))

/-- The last line is empty: a newline alone, or two newlines at the end. -/
def EndsBlank (bytes : List UInt8) : Prop := bytes = [10] ∨ [10, 10] <:+ bytes

instance (bytes : List UInt8) : Decidable (EndsBlank bytes) :=
  inferInstanceAs (Decidable (_ ∨ _))

theorem endsBlank_concat_iff (t : List UInt8) :
    EndsBlank (t ++ [10]) ↔ t = [] ∨ t.getLast? = some 10 := by
  unfold EndsBlank
  apply or_congr
  · simp
  · constructor
    · rintro ⟨s, hs⟩
      have hcut : s ++ [10] = t := by
        rw [← List.append_left_inj [10], ← hs]
        simp
      rw [← hcut, List.getLast?_concat]
    · intro h
      obtain ⟨s, rfl⟩ := List.getLast?_eq_some_iff.1 h
      exact ⟨s, by simp⟩

/-- The lines in front of the last newline are all of them that are not empty. -/
theorem nonEmptyLines_concat {t l : List UInt8} {ls : List (List UInt8)}
    (h : t.splitOn 10 = ls ++ [l]) :
    nonEmptyLines (t ++ [10])
      = (ls.filter fun x => x ≠ []) ++ [l].filter fun x => x ≠ [] := by
  unfold nonEmptyLines
  rw [List.splitOn_append_cons_self, h, List.splitOn_nil, List.filter_append, List.filter_append]
  simp

/-- The two tests of `pars_incomming_data` agree as long as the last line is not empty. -/
theorem callsLines_cliReply_iff {c : Chunk} (hnl : c.bytes.getLast? = some 10)
    (hzero : 0 ∉ c.bytes) :
    CallsLines c ((cliReply c).filterMap Event.callback) ↔ ¬ EndsBlank c.bytes := by
  obtain ⟨t, ht⟩ := List.getLast?_eq_some_iff.1 hnl
  obtain ⟨ls, l, hlines⟩ := exists_splitOn_eq 10 t
  have hcut : c.bytes.dropLast.splitOn 10 = ls ++ [l] := by
    rw [ht, List.dropLast_concat, hlines]
  have hno : ∀ x ∈ ls ++ [l], 0 ∉ x := by
    rw [← hcut]
    exact zero_not_mem_of_mem_splitOn hzero
  have hcalls := callbacks_of_not_mem_zero hcut hno
  rw [CallsLines, hcalls, ht, nonEmptyLines_concat hlines, endsBlank_concat_iff,
    ← last_splitOn_eq_nil_iff hlines]
  constructor
  · -- the callback for an empty last line has the length zero
    rintro ⟨-, hpos⟩ rfl
    exact hpos (withLength []) (List.mem_map_of_mem (by simp)) rfl
  · intro hne
    have hkeep : ([l].filter fun x => x ≠ []) = [l] := by simpa using hne
    rw [hkeep]
    refine ⟨rfl, fun call hcall => ?_⟩
    obtain ⟨x, hx, rfl⟩ := List.mem_map.1 hcall
    have hx' : x ≠ [] := by
      rcases List.mem_append.1 hx with hx | hx
      · simpa using (List.mem_filter.1 hx).2
      · rwa [List.mem_singleton.1 hx]
    simpa [withLength] using hx'

/-- **When the callbacks for a chunk are its lines.**  In every run of the server from a
reachable state, for a chunk that ends with a newline and has no zero: the callbacks are the
lines that are not empty exactly if the last line is not empty. -/
theorem callsLines_iff {ctx ctx' : Ctx} {tr pre post : List Event} {k : Answers} {i : ℕ}
    {c : Chunk} (h : Reachable cliServer fdSetsize ctx tr)
    (hrun : cliServerNonBlockingRun k ctx = some (ctx', pre ++ .received i (.data c) :: post))
    (hlegal : Legal fdSetsize ctx.listener (live ∅ tr) (pre ++ .received i (.data c) :: post))
    (hnl : c.bytes.getLast? = some 10) (hzero : 0 ∉ c.bytes) :
    CallsLines c ((untilRecv post).filterMap Event.callback) ↔ ¬ EndsBlank c.bytes := by
  obtain ⟨heach, -⟩ := eachRecv_cliStep h.tracks (.run k hrun) hlegal
  have hreply : (untilRecv post).filterMap Event.callback
      = (cliReply c).filterMap Event.callback := heach.at c rfl
  rw [hreply]
  exact callsLines_cliReply_iff hnl hzero

/-- An empty line and then `shutdown`. -/
def sampleBlankFirst : Chunk := ⟨10 :: sampleCommand ++ [10], by decide, by decide⟩

/-- A newline alone. -/
def sampleBlank : Chunk := ⟨[10], by decide, by decide⟩

/-- What a run does when it reads the chunk from the client. -/
theorem received_sampleReadEvents (c : Chunk) :
    sampleReadEvents c = [.selected {4, 3} {4}, .isset 0, .isset 1, .isset 2, .isset 3, .isset 4]
      ++ .received 4 (.data c) :: cliReply c := rfl

/-- An empty line in front of a command makes no callback. -/
theorem callsLines_sampleBlankFirst :
    CallsLines sampleBlankFirst ((untilRecv (cliReply sampleBlankFirst)).filterMap
      Event.callback) := by
  have hrun : cliServerNonBlockingRun (sampleRead sampleBlankFirst) sampleConnected
      = some (sampleConnected, sampleReadEvents sampleBlankFirst) := by decide +kernel
  have hlegal := legal_sampleReadEvents (live ∅ sampleTrace) sampleBlankFirst
  rw [received_sampleReadEvents] at hrun hlegal
  exact (callsLines_iff reachable_sampleConnected hrun hlegal (by decide +kernel)
    (by decide +kernel)).2 (by decide +kernel)

/-- A newline alone does: the callback has the length zero. -/
theorem not_callsLines :
    ¬ ∀ (ctx ctx' : Ctx) (tr pre post : List Event) (k : Answers) (i : ℕ) (c : Chunk),
      Reachable cliServer fdSetsize ctx tr →
        cliServerNonBlockingRun k ctx = some (ctx', pre ++ .received i (.data c) :: post) →
          Legal fdSetsize ctx.listener (live ∅ tr) (pre ++ .received i (.data c) :: post) →
            c.bytes.getLast? = some 10 → 0 ∉ c.bytes →
              CallsLines c ((untilRecv post).filterMap Event.callback) := by
  intro h
  have hrun : cliServerNonBlockingRun (sampleRead sampleBlank) sampleConnected
      = some (sampleConnected, sampleReadEvents sampleBlank) := by decide +kernel
  have hlegal := legal_sampleReadEvents (live ∅ sampleTrace) sampleBlank
  rw [received_sampleReadEvents] at hrun hlegal
  have hcalls := h _ _ _ _ _ _ _ _ reachable_sampleConnected hrun hlegal (by decide +kernel)
    (by decide +kernel)
  exact absurd hcalls (by decide +kernel)

end TcpSelect
