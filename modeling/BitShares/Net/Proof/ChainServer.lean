import BitShares.Fork.Proof.Exact
import BitShares.Net.ChainServer
import Mathlib.Data.List.Basic
import Mathlib.Logic.Relation

/-!
# The fast download is complete

Whatever the two ends do in which order, and however the server's chain grows meanwhile, the client
hands on the blocks of that chain in order, without a gap and without a repetition.

* `agree_of_run`: how the ends stand to each other once the client has taken what is under way.
* `Exact.growsTo`: the chain of a node grows in the sense of a run.
* `download_in_order`, `download_finishes`: what the callback is given, and that the download ends
  if the chain rests.
-/

namespace BitShares

open Relation (ReflTransGen)

/-! ## Several values -/

/-- What the client does with several values. -/
def DownloaderPhase.run (first : BlockNum) : DownloaderPhase → List ChainReply →
    DownloaderPhase × List (FullBlock × Nat) × List ChainRequest
  | c, [] => (c, [], [])
  | c, reply :: rest =>
    let out := c.step first reply
    let more := out.1.run first rest
    (more.1, out.2.1 ++ more.2.1, out.2.2 ++ more.2.2)

namespace DownloaderPhase

variable {first : BlockNum}

theorem run_append (c : DownloaderPhase) (l l' : List ChainReply) :
    c.run first (l ++ l') =
      (((c.run first l).1.run first l').1,
        (c.run first l).2.1 ++ ((c.run first l).1.run first l').2.1,
        (c.run first l).2.2 ++ ((c.run first l).1.run first l').2.2) := by
  induction l generalizing c with
  | nil => simp [run]
  | cons reply l ih => simp [run, ih]

theorem run_of_step {c : DownloaderPhase} (hc : ∀ reply, c.step first reply = (c, [], []))
    (l : List ChainReply) : c.run first l = (c, [], []) := by
  induction l with
  | nil => rfl
  | cons reply l ih => simp [run, hc, ih]

end DownloaderPhase

/-! ## The chain of a node -/

namespace Exact

variable [Crypto] {s s' : ForkState} {l l' : List FullBlock} {n : BlockNum} {c : FullBlock}

theorem getBlock_eq_ok (h : Exact s) (hl : Mirrored s l) :
    s.chain.getBlock n = .ok c ↔ c ∈ l ∧ c.blockNum = n := by
  simp only [ChainState.getBlock, bind_eq_ok, expect_eq_ok, hl.index]
  constructor
  · rintro ⟨_, ⟨d, hd, rfl, rfl⟩, hc⟩
    obtain rfl := Option.some.inj ((h.lookup_of_mem hl hd).1.symm.trans hc)
    exact ⟨hd, rfl⟩
  · rintro ⟨hc, rfl⟩
    exact ⟨c.id, ⟨c, hc, rfl, rfl⟩, (h.lookup_of_mem hl hc).1⟩

theorem headNum_eq (h : Exact s) (hl : Mirrored s l) : s.chain.head.blockNum = l.length := by
  rcases h.seated with ⟨hnull, hhead⟩ | ⟨c, hc, -⟩
  · have hpath := hl.path
    rw [hnull] at hpath
    rw [hhead, hpath.of_nullId h.tree.null]
    rfl
  · obtain ⟨l₀, rfl⟩ := h.head_mirrored hc hl
    rw [h.headNum hc, hl.sequenced.num, List.length_cons]

theorem exists_getBlock (h : Exact s) (hl : Mirrored s l) (hpos : 1 ≤ n)
    (hn : n ≤ s.chain.head.blockNum) : ∃ c, s.chain.getBlock n = .ok c := by
  rw [h.headNum_eq hl] at hn
  -- the block at the top of the last `n`
  have hsuffix := List.drop_suffix (l.length - n) l
  have hlength : (l.drop (l.length - n)).length = n := by
    rw [List.length_drop, Nat.sub_sub_self hn]
  cases hdrop : l.drop (l.length - n) with
  | nil =>
    rw [hdrop] at hlength
    exact absurd hlength (Nat.ne_of_lt hpos)
  | cons c l₀ =>
    rw [hdrop] at hsuffix hlength
    refine ⟨c, (h.getBlock_eq_ok hl).2 ⟨hsuffix.subset List.mem_cons_self, ?_⟩⟩
    rw [(hl.sequenced.of_suffix hsuffix).num, ← hlength, List.length_cons]

theorem served (h : Exact s) (hfits : s.chain.head.blockNum + 1 < 2 ^ 32) : s.chain.Served := by
  obtain ⟨l, hl⟩ := h.mirrored
  exact ⟨fun n hpos hn => h.exists_getBlock hl hpos hn, hfits⟩

/-- **Blocks on top of the active chain** let it grow, whatever else the node has stored. -/
theorem growsTo (h : Exact s) (h' : Exact s') (hl : Mirrored s l) (hl' : Mirrored s' l')
    (hsuffix : l <:+ l') (hfits : s'.chain.head.blockNum + 1 < 2 ^ 32) :
    s.chain.GrowsTo s'.chain where
  served := h'.served hfits
  head := by
    rw [h.headNum_eq hl, h'.headNum_eq hl']
    exact hsuffix.length_le
  blocks n hpos hn := by
    obtain ⟨c, hc⟩ := h.exists_getBlock hl hpos hn
    obtain ⟨hmem, hnum⟩ := (h.getBlock_eq_ok hl).1 hc
    rw [hc]
    exact (h'.getBlock_eq_ok hl').2 ⟨hsuffix.subset hmem, hnum⟩

end Exact

/-! ## How the ends stand to each other -/

theorem ServerPhase.step_sending {s : ChainState} (hs : s.Served) {n : BlockNum} (e : BlockNum)
    (hpos : 1 ≤ n) (hn : n ≤ s.head.blockNum) :
    ∃ b, s.getBlock n = .ok b ∧ (sending n e).step s = (.next (n + 1) e, [.block b]) := by
  obtain ⟨b, hb⟩ := hs.stored n hpos hn
  have hnext : (n + 1) % 2 ^ 32 = n + 1 :=
    Nat.mod_eq_of_lt (lt_of_le_of_lt (Nat.succ_le_succ hn) hs.fits)
  exact ⟨b, hb, by simp only [step, hb, hnext]⟩

/-- The first block that is asked for. -/
def firstBlock (first : BlockNum) : BlockNum := if first = 0 then 1 else first

theorem firstBlock_pos (first : BlockNum) : 1 ≤ firstBlock first := by
  unfold firstBlock
  split
  · exact le_refl 1
  · exact Nat.one_le_iff_ne_zero.2 ‹_›

/-- The blocks of `s` from `m` up to `n`, without it. -/
structure ChainState.Lists (s : ChainState) (m n : BlockNum) (l : List (FullBlock × Nat)) :
    Prop where
  le : m ≤ n
  within : m < n → n ≤ s.head.blockNum + 1
  blocks : l.map (fun x => Except.ok x.1) = (List.range' m (n - m)).map s.getBlock

theorem ChainState.Lists.nil (s : ChainState) (m : BlockNum) : s.Lists m m [] :=
  ⟨Nat.le_refl m, fun h => absurd h (Nat.lt_irrefl m), by simp⟩

theorem ChainState.Lists.snoc {s : ChainState} {m n k : BlockNum} {l : List (FullBlock × Nat)}
    {b : FullBlock} (h : s.Lists m n l) (hb : s.getBlock n = .ok b) (hn : n ≤ s.head.blockNum) :
    s.Lists m (n + 1) (l ++ [(b, k)]) := by
  refine ⟨Nat.le_succ_of_le h.le, fun _ => Nat.succ_le_succ hn, ?_⟩
  have hlast : m + (n - m) = n := Nat.add_sub_cancel' h.le
  rw [List.map_append, h.blocks, Nat.succ_sub h.le, List.range'_concat, List.map_append]
  simp [hlast, hb]

theorem ChainState.Lists.grow {s s' : ChainState} {m n : BlockNum} {l : List (FullBlock × Nat)}
    (h : s.Lists m n l) (hm : 1 ≤ m) (hgrow : s.GrowsTo s') : s'.Lists m n l := by
  refine ⟨h.le, fun hlt => (h.within hlt).trans (Nat.succ_le_succ hgrow.head), ?_⟩
  rw [h.blocks]
  refine List.map_congr_left fun i hi => (hgrow.blocks i ?_ ?_).symm
  · exact hm.trans (List.mem_range'_1.1 hi).1
  · have hi' := List.mem_range'_1.1 hi
    have hlt : i < n := hi'.2.trans_eq (Nat.add_sub_cancel' h.le)
    exact Nat.le_of_lt_succ (hlt.trans_le (h.within (lt_of_le_of_lt hi'.1 hlt)))

/-- The phases of the two ends and the requests under way, when `n` is the next block. -/
inductive Phases (first : BlockNum) (s₀ s : ChainState) :
    ServerPhase → DownloaderPhase → List ChainRequest → BlockNum → Prop
  | greeting : Phases first s₀ s .greeting .connecting [] (firstBlock first)
  | asked : Phases first s₀ s .waiting .counting [.getBlocksFromNumber first] (firstBlock first)
  | testing (n : BlockNum) : Phases first s₀ s (.testing n) .counting [] n
  | counting {n : BlockNum} (hn : n ≤ s.head.blockNum) :
      Phases first s₀ s (.counting n) .counting [] n
  | sending {n e : BlockNum} (hn : n ≤ e) (he : e ≤ s.head.blockNum) :
      Phases first s₀ s (.sending n e) (.retrieving (e + 1 - n)) [] n
  | sent {n : BlockNum} (hn : s₀.head.blockNum < n) :
      Phases first s₀ s .waiting .finished [.finish] n
  | stopped {n : BlockNum} (hn : s₀.head.blockNum < n) : Phases first s₀ s .stopped .finished [] n

/-- The ends agree on the next block, and those before it were handed on. -/
def Agree (first : BlockNum) (s₀ s : ChainState) (server : ServerPhase) (c : DownloaderPhase)
    (q : List ChainRequest) (l : List (FullBlock × Nat)) : Prop :=
  ∃ n, Phases first s₀ s server c q n ∧ s.Lists (firstBlock first) n l

namespace Agree

variable {first : BlockNum} {s₀ s s' : ChainState} {server : ServerPhase} {c : DownloaderPhase}
  {q : List ChainRequest} {l : List (FullBlock × Nat)}

theorem grow (h : Agree first s₀ s server c q l) (hgrow : s.GrowsTo s') :
    Agree first s₀ s' server c q l := by
  obtain ⟨n, hphases, hl⟩ := h
  refine ⟨n, ?_, hl.grow (firstBlock_pos first) hgrow⟩
  cases hphases with
  | counting hn => exact .counting (hn.trans hgrow.head)
  | sending hn he => exact .sending hn (he.trans hgrow.head)
  | _ => constructor <;> assumption

theorem client (h : Agree first s₀ s server c q l) : c ≠ .failed ∧ c ≠ .refused := by
  obtain ⟨n, hphases, -⟩ := h
  cases hphases <;> exact ⟨nofun, nofun⟩

theorem count_eq {n e : Nat} (hn : n ≤ e) (he : e + 1 < 2 ^ 32) (hpos : 1 ≤ n) :
    (e + 2 ^ 32 - n + 1) % 2 ^ 32 = e + 1 - n := by
  have hsum : e + 2 ^ 32 - n + 1 = e + 1 - n + 2 ^ 32 := by omega
  rw [hsum, Nat.add_mod_right, Nat.mod_eq_of_lt (by omega)]

theorem left_eq_zero {n e : Nat} (hn : n ≤ e) : e + 1 - n - 1 = 0 ↔ ¬ n + 1 ≤ e := by omega

/-- **One step of the server**, and the client's answer to it. -/
theorem step (h : Agree first s₀ s server c q l) (hs : s.Served)
    (hhead : s₀.head.blockNum ≤ s.head.blockNum) (hserver : server ≠ .waiting) :
    Agree first s₀ s (server.step s).1 (c.run first (server.step s).2).1
      (q ++ (c.run first (server.step s).2).2.2) (l ++ (c.run first (server.step s).2).2.1) := by
  have hfirst := firstBlock_pos first
  obtain ⟨n, hphases, hl⟩ := h
  cases hphases with
  | greeting => exact ⟨_, .asked, (List.append_nil l).symm ▸ hl⟩
  | asked | sent => exact absurd rfl hserver
  | testing =>
    by_cases hn : n ≤ s.head.blockNum
    · simp only [ServerPhase.step, if_pos hn, DownloaderPhase.run, List.append_nil]
      exact ⟨n, .counting hn, hl⟩
    · simp only [ServerPhase.step, if_neg hn, DownloaderPhase.run, DownloaderPhase.step,
        List.append_nil]
      exact ⟨n, .sent (hhead.trans_lt (Nat.lt_of_not_le hn)), hl⟩
  | counting hn =>
    obtain ⟨k, hk⟩ : ∃ k, s.head.blockNum + 1 - n = k + 1 :=
      ⟨s.head.blockNum - n, Nat.succ_sub hn⟩
    have hcount := count_eq hn hs.fits (hfirst.trans hl.le)
    simp only [ServerPhase.step, ServerPhase.next, if_pos hn, DownloaderPhase.run, hcount, hk,
      DownloaderPhase.step, List.append_nil]
    rw [← hk]
    exact ⟨n, .sending hn (Nat.le_refl _), hl⟩
  | @sending _ e hn he =>
    obtain ⟨b, hb, hstep⟩ := ServerPhase.step_sending hs e (hfirst.trans hl.le) (hn.trans he)
    have hl' : s.Lists (firstBlock first) (n + 1) (l ++ [(b, e + 1 - n)]) :=
      hl.snoc hb (hn.trans he)
    simp only [hstep, DownloaderPhase.run, DownloaderPhase.step, List.append_nil, ServerPhase.next]
    by_cases hlast : n + 1 ≤ e
    · have hleft : e + 1 - n - 1 = e + 1 - (n + 1) := rfl
      rw [if_pos hlast, if_neg fun h0 => (left_eq_zero hn).1 h0 hlast, hleft]
      exact ⟨_, .sending hlast he, hl'⟩
    · rw [if_neg hlast, if_pos ((left_eq_zero hn).2 hlast)]
      exact ⟨_, .testing _, hl'⟩
  | stopped hn => exact ⟨n, .stopped hn, (List.append_nil l).symm ▸ hl⟩

theorem request {r : ChainRequest} (h : Agree first s₀ s .waiting c (r :: q) l) :
    Agree first s₀ s (.request r) c q l := by
  obtain ⟨n, hphases, hl⟩ := h
  cases hphases with
  | asked => exact ⟨_, .testing _, hl⟩
  | sent hn => exact ⟨n, .stopped hn, hl⟩

end Agree

/-! ## Every state of a run -/

/-- The ends agree once the client has taken what is under way. -/
def Download.Agrees (d : Download) (first : BlockNum) (s₀ s : ChainState) : Prop :=
  Agree first s₀ s d.server (d.client.run first d.replies).1
    (d.requests ++ (d.client.run first d.replies).2.2)
    (d.delivered ++ (d.client.run first d.replies).2.1)

namespace Download.Agrees

variable {first : BlockNum} {s₀ s : ChainState} {d : Download}

theorem receive (h : d.Agrees first s₀ s) : (d.receive first).Agrees first s₀ s := by
  unfold Download.Agrees Download.receive at *
  cases hreplies : d.replies with
  | nil => simpa [hreplies] using h
  | cons reply rest =>
    rw [hreplies] at h
    simpa only [DownloaderPhase.run, List.append_assoc] using h

theorem serve (h : d.Agrees first s₀ s) (hs : s.Served)
    (hhead : s₀.head.blockNum ≤ s.head.blockNum) : (d.serve s).Agrees first s₀ s := by
  have hstep : d.server ≠ .waiting → Download.Agrees { d with
      server := (d.server.step s).1, replies := d.replies ++ (d.server.step s).2 } first s₀ s := by
    intro hserver
    have hnext := Agree.step h hs hhead hserver
    simpa only [Download.Agrees, DownloaderPhase.run_append, List.append_assoc] using hnext
  unfold Download.serve
  split
  · exact h
  · rename_i request rest hserver hrequests
    unfold Download.Agrees at h ⊢
    rw [hserver, hrequests] at h
    exact Agree.request h
  · rename_i hwaiting hrequest
    refine hstep fun hserver => ?_
    cases hrequests : d.requests with
    | nil => exact hwaiting hserver hrequests
    | cons r rest => exact hrequest r rest hserver hrequests

end Download.Agrees

theorem agree_of_run {first : BlockNum} {s₀ s : ChainState} {d : Download}
    (h : DownloadRun first s₀ s d) :
    s.Served ∧ s₀.head.blockNum ≤ s.head.blockNum ∧ d.Agrees first s₀ s := by
  induction h with
  | start hs => exact ⟨hs, Nat.le_refl _, _, .greeting, .nil _ _⟩
  | grow _ hgrow ih => exact ⟨hgrow.served, ih.2.1.trans hgrow.head, Agree.grow ih.2.2 hgrow⟩
  | serve _ ih => exact ⟨ih.1, ih.2.1, ih.2.2.serve ih.1 ih.2.1⟩
  | receive _ ih => exact ⟨ih.1, ih.2.1, ih.2.2.receive⟩

/-- **The download is in order.**  However the steps of the two ends and the growth of the server's
chain interleave, the callback has been given the blocks of that chain from the first one asked for,
without gap or repetition; and when the client has finished, all that the chain had at the start. -/
theorem download_in_order {first : BlockNum} {s₀ s : ChainState} {d : Download}
    (h : DownloadRun first s₀ s d) :
    d.client ≠ .failed ∧ d.client ≠ .refused ∧
    ∃ n, d.delivered.map (fun x => Except.ok x.1) =
        (List.range' (firstBlock first) n).map s.getBlock ∧
      (d.client = .finished → s₀.head.blockNum < firstBlock first + n) := by
  obtain ⟨-, -, hagree⟩ := agree_of_run h
  have hends := Agree.client hagree
  obtain ⟨n, hphases, hl⟩ := hagree
  refine ⟨fun hfailed => hends.1 ?_, fun hrefused => hends.2 ?_, d.delivered.length, ?_,
    fun hd => ?_⟩
  · rw [hfailed, DownloaderPhase.run_of_step fun _ => rfl]
  · rw [hrefused, DownloaderPhase.run_of_step fun _ => rfl]
  · -- what is delivered is the first part of what will be
    have hlength := congrArg List.length hl.blocks
    have hblocks := hl.blocks
    simp only [List.length_map, List.length_append, List.length_range'] at hlength
    rw [← hlength, ← List.range'_append_1, List.map_append, List.map_append] at hblocks
    exact (List.append_inj hblocks (by simp)).1
  · rw [hd, DownloaderPhase.run_of_step fun _ => rfl, List.append_nil] at hl
    rw [hd, DownloaderPhase.run_of_step fun _ => rfl] at hphases
    have hlength := congrArg List.length hl.blocks
    rw [List.length_map, List.length_map, List.length_range'] at hlength
    rw [hlength, Nat.add_sub_cancel' hl.le]
    generalize d.server = server at hphases
    generalize d.requests ++ [] = q at hphases
    cases hphases <;> assumption

/-- A connection to a server whose chain is at `s₀` when it is asked and then at `s`, and four blocks
high. -/
def Download.resumed (s₀ s : ChainState) : Download :=
  (·.receive 0)^[6] ((·.serve s)^[8] ((({} : Download).serve s₀).receive 0))

theorem DownloadRun.resumed {s₀ s : ChainState} (hserved : s₀.Served) (hgrow : s₀.GrowsTo s) :
    DownloadRun 0 s₀ s (.resumed s₀ s) := by
  have hserves : ∀ n, DownloadRun 0 s₀ s ((·.serve s)^[n] ((({} : Download).serve s₀).receive 0)) := by
    intro n
    induction n with
    | zero => exact .grow (.receive (.serve (.start hserved))) hgrow
    | succ n ih =>
      rw [Function.iterate_succ_apply']
      exact .serve ih
  have hreceives : ∀ n d, DownloadRun 0 s₀ s d → DownloadRun 0 s₀ s ((·.receive 0)^[n] d) := by
    intro n d hd
    induction n with
    | zero => exact hd
    | succ n ih =>
      rw [Function.iterate_succ_apply']
      exact .receive ih
  exact hreceives 6 _ (hserves 8)

/-- After block 1 a node goes on through a fork that it leaves for another. -/
theorem exists_grown_branched :
    letI := Crypto.timed
    ∃ s₀ s : ChainState, s₀.Served ∧ s₀.GrowsTo s ∧ s₀.head.blockNum = 1 ∧
      (Download.resumed s₀ s).client = .finished ∧
      (Download.resumed s₀ s).delivered.map (·.1.timestamp) = [10, 20, 60, 70] := by
  let := Crypto.timed
  let check : ForkState → ForkEvent → Bool := fun s e => e.staysLow s
  obtain ⟨s₀, hs₀, hhead₀, hblock₀, s, hs, hhead, hblock, hend⟩ := exists_some_of_any
    (o := (ForkState.genesis (soloTables 100)).checkedSteps check 9 (branchedPushes.take 1))
    (p := fun s₀ => s₀.chain.head.blockNum = 1 ∧
      (s₀.chain.getBlock 1).toOption.any (· = soloBlock 1 nullId 10 []) = true ∧
      ∃ s ∈ s₀.checkedSteps check 9 (branchedPushes.drop 1), s.chain.head.blockNum = 4 ∧
        (s.chain.getBlock 1).toOption.any (· = soloBlock 1 nullId 10 []) = true ∧
        (Download.resumed s₀.chain s.chain).client = .finished ∧
        (Download.resumed s₀.chain s.chain).delivered.map (·.1.timestamp) = [10, 20, 60, 70])
    (by decide +kernel)
  have hexact₀ := (Exact.genesis (soloTables 100)).run
    (.of_checkedSteps (fun s e => ForkEvent.keepsWindow_of_low) hs₀)
  have hexact := hexact₀.run (.of_checkedSteps (fun s e => ForkEvent.keepsWindow_of_low) hs)
  obtain ⟨_, hblock₀, rfl⟩ := exists_ok_of_any hblock₀
  obtain ⟨_, hblock, rfl⟩ := exists_ok_of_any hblock
  have hgrow : s₀.chain.GrowsTo s.chain := by
    refine ⟨hexact.served (by rw [hhead]; decide), by rw [hhead₀, hhead]; decide, fun n h1 hn => ?_⟩
    obtain rfl : n = 1 := le_antisymm (hhead₀ ▸ hn) h1
    exact hblock.trans hblock₀.symm
  exact ⟨s₀.chain, s.chain, hexact₀.served (by rw [hhead₀]; decide), hgrow, hhead₀, hend⟩

theorem download_in_order_branched :
    letI := Crypto.timed
    ∃ s₀ s d, DownloadRun 0 s₀ s d ∧ s₀.head.blockNum = 1 ∧ d.client = .finished ∧
      d.delivered.map (·.1.timestamp) = [10, 20, 60, 70] ∧
      ∃ n, d.delivered.map (fun x => Except.ok x.1) = (List.range' 1 n).map s.getBlock ∧
        1 < 1 + n := by
  let := Crypto.timed
  obtain ⟨s₀, s, hserved, hgrow, hhead, hclient, hdelivered⟩ := exists_grown_branched
  have hrun := DownloadRun.resumed hserved hgrow
  obtain ⟨-, -, n, hn, hfinished⟩ := download_in_order hrun
  have hlast := hfinished hclient
  rw [hhead] at hlast
  exact ⟨s₀, s, _, hrun, hhead, hclient, hdelivered, n, hn, hlast⟩


/-! ## The download ends -/

/-- The two ends go on while the chain rests at `s`. -/
abbrev Download.Moves (first : BlockNum) (s : ChainState) : Download → Download → Prop :=
  ReflTransGen fun d d' => d' = d.serve s ∨ d' = d.receive first

theorem Download.exists_taken (first : BlockNum) (s : ChainState) (d : Download) :
    ∃ d', Download.Moves first s d d' ∧ d'.replies = [] ∧ d'.server = d.server ∧
      d'.client = (d.client.run first d.replies).1 := by
  obtain ⟨server, requests, client, replies, delivered⟩ := d
  induction replies generalizing requests client delivered with
  | nil => exact ⟨_, .refl, rfl, rfl, rfl⟩
  | cons reply replies ih =>
    obtain ⟨d', hmoves, htaken, hserver, hclient⟩ := ih (requests ++ (client.step first reply).2.2)
      (client.step first reply).1 (delivered ++ (client.step first reply).2.1)
    exact ⟨d', .head (.inr rfl) hmoves, htaken, hserver, hclient⟩

theorem DownloadRun.moves {first : BlockNum} {s₀ s : ChainState} {d d' : Download}
    (h : DownloadRun first s₀ s d) (hmoves : Download.Moves first s d d') :
    DownloadRun first s₀ s d' := by
  induction hmoves with
  | refl => exact h
  | tail _ hstep ih =>
    rcases hstep with rfl | rfl
    · exact .serve ih
    · exact .receive ih

/-- How far the server is from the end, with the head at `h`. -/
def ServerPhase.rank (h : Nat) : ServerPhase → Nat
  | .greeting => 3 * h + 9
  | .waiting => 3 * h + 8
  | .testing n => 3 * (h + 1 - n) + 2
  | .counting n => 3 * (h + 1 - n) + 1
  | .sending n _ => 3 * (h + 1 - n)
  | .stopped => 0

theorem ServerPhase.rank_next {h n e : Nat} (hn : n ≤ h) :
    (ServerPhase.next (n + 1) e).rank h < (ServerPhase.sending n e).rank h := by
  unfold next
  split <;> simp only [rank] <;> omega

theorem Agree.progress {first : BlockNum} {s₀ s : ChainState} {server : ServerPhase}
    {c : DownloaderPhase} {q : List ChainRequest} {l : List (FullBlock × Nat)}
    (h : Agree first s₀ s server c q l) (hs : s.Served) (hc : c ≠ .finished) :
    (∃ r rest, server = .waiting ∧ q = r :: rest ∧
        (ServerPhase.request r).rank s.head.blockNum < server.rank s.head.blockNum) ∨
      server ≠ .waiting ∧ ((c.run first (server.step s).2).1 = .finished ∨
        (server.step s).1.rank s.head.blockNum < server.rank s.head.blockNum) := by
  obtain ⟨n, hphases, hl⟩ := h
  cases hphases with
  | greeting => exact .inr ⟨nofun, .inr (Nat.lt_succ_self _)⟩
  | asked =>
    refine .inl ⟨_, _, rfl, rfl, ?_⟩
    simp only [ServerPhase.request, ServerPhase.rank]
    omega
  | testing =>
    refine .inr ⟨nofun, ?_⟩
    by_cases hn : n ≤ s.head.blockNum
    · simp [ServerPhase.step, hn, ServerPhase.rank]
    · simp [ServerPhase.step, hn, DownloaderPhase.run, DownloaderPhase.step]
  | counting hn =>
    refine .inr ⟨nofun, .inr ?_⟩
    simp [ServerPhase.step, ServerPhase.next, hn, ServerPhase.rank]
  | @sending _ e hn he =>
    obtain ⟨b, -, hstep⟩ :=
      ServerPhase.step_sending hs e ((firstBlock_pos first).trans hl.le) (hn.trans he)
    refine .inr ⟨nofun, .inr ?_⟩
    rw [hstep]
    exact ServerPhase.rank_next (hn.trans he)
  | sent | stopped => exact absurd rfl hc

/-- **The download ends**: from every state of a run, if the chain rests the two ends can go on to
where the client has finished. -/
theorem download_finishes {first : BlockNum} {s₀ s : ChainState} {d : Download}
    (h : DownloadRun first s₀ s d) :
    ∃ d', Download.Moves first s d d' ∧ d'.client = .finished := by
  induction hrank : d.server.rank s.head.blockNum using Nat.strong_induction_on generalizing d with
  | _ k ih =>
  obtain ⟨m, hmoves, htaken, hserver, -⟩ := Download.exists_taken first s d
  have hm := h.moves hmoves
  obtain ⟨hs, hhead, hagree⟩ := agree_of_run hm
  by_cases hfinished : m.client = .finished
  · exact ⟨m, hmoves, hfinished⟩
  have hserved := hmoves.tail (.inl (rfl : m.serve s = m.serve s))
  have hnearer : (m.serve s).server.rank s.head.blockNum < k →
      ∃ d', Download.Moves first s d d' ∧ d'.client = .finished := by
    intro hlt
    obtain ⟨d', hmoves', hd'⟩ := ih _ hlt (.serve hm) rfl
    exact ⟨d', hserved.trans hmoves', hd'⟩
  have hnow : Agree first s₀ s m.server m.client m.requests m.delivered := by
    simpa [Download.Agrees, htaken, DownloaderPhase.run] using hagree
  rw [← hserver] at hrank
  rcases hnow.progress hs hfinished with ⟨r, rest, hwaiting, hq, hlt⟩ | ⟨hwaiting, hstep⟩
  · refine hnearer ?_
    rw [← hrank]
    simpa [Download.serve, hwaiting, hq] using hlt
  · have hserve : m.serve s =
        { m with server := (m.server.step s).1, replies := (m.server.step s).2 } := by
      unfold Download.serve
      split
      · exact absurd ‹_› hwaiting
      · exact absurd ‹_› hwaiting
      · rw [htaken, List.nil_append]
    rcases hstep with hlast | hlt
    · obtain ⟨d', hmoves', -, -, hclient⟩ := Download.exists_taken first s (m.serve s)
      refine ⟨d', hserved.trans hmoves', hclient.trans ?_⟩
      rw [hserve]
      exact hlast
    · refine hnearer ?_
      rw [hserve, ← hrank]
      exact hlt

theorem download_finishes_branched :
    letI := Crypto.timed
    ∃ s₀ s d d', DownloadRun 0 s₀ s d ∧ s₀.head.blockNum = 1 ∧ d.client = .connecting ∧
      Download.Moves 0 s d d' ∧ d'.client = .finished := by
  let := Crypto.timed
  obtain ⟨s₀, s, hserved, hgrow, hhead, -⟩ := exists_grown_branched
  have hrun : DownloadRun 0 s₀ s (({} : Download).serve s₀) := .grow (.serve (.start hserved)) hgrow
  obtain ⟨d', hmoves, hd'⟩ := download_finishes hrun
  exact ⟨s₀, s, _, d', hrun, hhead, rfl, hmoves, hd'⟩

end BitShares
