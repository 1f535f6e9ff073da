import BitFS.Library.Threads
import BitFS.Read.Invariant

/-! # What libtorrent does between the steps of the threads

libtorrent finishes pieces, answers requests and posts alerts in the same way for every
program that reads from a session. It leaves priorities, `fsmtx` and the map alone, and
takes no alert back. A schedule serves a program if all threads get their turns and every
request is answered, with success; there are such schedules.
-/

namespace BitFS.Read

open BitFS.Tree Transition Fairness Threads

variable {t : Torrent} {ι : Type}

/-- The action does not report a failed read. -/
def Action.Succeeds : Action ι → Prop
  | .answer _ failed => failed = false
  | _ => True

def Alert.isRead : Alert → Bool
  | .read_piece_alert _ _ _ => true
  | .other => false

/-- A request costs two until it is answered and one until the answer is popped. -/
def Session.pending (sh : Session ι) : Nat := 2 * sh.requests.length + sh.alerts.countP Alert.isRead

/-- The session after an action that is not the turn of a thread. -/
def Session.served (t : Torrent) (sh : Session ι) : Action ι → Session ι
  | .reader _ => sh
  | .complete p =>
      if p < t.numPieces then { sh with downloaded := insert (p : Int) sh.downloaded } else sh
  | .answer k failed =>
      match sh.requests[k]? with
      | none => sh
      | some p =>
          { sh with
            requests := sh.requests.eraseIdx k
            alerts := sh.alerts ++ [Sys.answerAlert t p failed] }
  | .post => { sh with alerts := sh.alerts ++ [.other] }

namespace Session

variable {sh sh' : Session ι} {a : Action ι} {genuine : Prop}

theorem served_change (ha : genuine → a.Succeeds) : Change t genuine sh none (sh.served t a) := by
  cases a with
  | reader r => exact .keep _
  | complete p =>
      rw [served]
      split
      · exact .complete _
      · exact .keep _
  | answer k failed =>
      rw [served]
      split
      · exact .keep _
      · rename_i p hp
        refine .answer hp fun hg => ?_
        rw [show failed = false from ha hg, if_neg Bool.false_ne_true]
  | post => exact .post

/-- What threads set, and the alerts that nobody has popped. -/
structure SetByThreads (sh sh' : Session ι) : Prop where
  map : sh'.piece_buffer_map = sh.piece_buffer_map
  priority : sh'.priority = sh.priority
  fsmtx : sh'.fsmtx = sh.fsmtx
  calls : sh'.calls = sh.calls
  alerts : sh.alerts <+: sh'.alerts

theorem served_kept : SetByThreads sh (sh.served t a) := by
  cases a with
  | reader r => exact ⟨rfl, rfl, rfl, rfl, List.prefix_rfl⟩
  | complete p =>
      rw [served]
      split <;> exact ⟨rfl, rfl, rfl, rfl, List.prefix_rfl⟩
  | answer k failed =>
      rw [served]
      split
      · exact ⟨rfl, rfl, rfl, rfl, List.prefix_rfl⟩
      · exact ⟨rfl, rfl, rfl, rfl, List.prefix_append _ _⟩
  | post => exact ⟨rfl, rfl, rfl, rfl, List.prefix_append _ _⟩

/-- An answer costs one less than the request. -/
theorem pending_answer {k : Nat} (failed : Bool) (hk : k < sh.requests.length) :
    (sh.served t (.answer k failed)).pending + 1 = sh.pending := by
  rw [served, List.getElem?_eq_getElem hk]
  simp only [pending, List.length_eraseIdx_of_lt hk, List.countP_append, Sys.answerAlert,
    List.countP_singleton, Alert.isRead, if_true]
  omega

theorem pending_served_le : (sh.served t a).pending ≤ sh.pending := by
  cases a with
  | reader r => exact le_rfl
  | complete p =>
      rw [served]
      split <;> exact le_rfl
  | answer k failed =>
      by_cases hk : k < sh.requests.length
      · have hless := sh.pending_answer (t := t) failed hk
        omega
      · rw [served, List.getElem?_eq_none (not_lt.mp hk)]
  | post =>
      simp only [served, pending, List.countP_append, List.countP_singleton, Alert.isRead,
        Bool.false_eq_true, if_false, Nat.add_zero, le_refl]

/-- A thread never withdraws a request. -/
theorem Change.requests {me : ι} (h : Change t genuine sh (some me) sh') :
    sh.requests.length ≤ sh'.requests.length := by
  cases h with
  | readPiece me _ => exact List.length_append ▸ Nat.le_add_right _ _
  | _ => exact le_rfl

/-- What has been downloaded or cached stays so. -/
theorem later {f : Nat → Session ι} (h : ∀ n, ∃ who, Change t genuine (f n) who (f (n + 1)))
    {m n : Nat} (hmn : m ≤ n) :
    (f m).downloaded ⊆ (f n).downloaded ∧
      ∀ p, ((f m).piece_buffer_map p).isSome → ((f n).piece_buffer_map p).isSome := by
  induction n, hmn using Nat.le_induction with
  | base => exact ⟨Finset.Subset.refl _, fun _ h => h⟩
  | succ n hmn ih =>
      obtain ⟨who, hc⟩ := h n
      exact ⟨ih.1.trans hc.downloaded, fun p hp => hc.grows.cached p (ih.2 p hp)⟩

end Session

/-! ## Programs on a session -/

section Program

variable {σ : Type} {step : σ → Action ι → σ} {session : σ → Session ι}

/-- All that is not the turn of a thread is libtorrent's. -/
def Hosted (t : Torrent) (step : σ → Action ι → σ) (session : σ → Session ι) : Prop :=
  ∀ s a, (∀ r, a ≠ .reader r) → session (step s a) = (session s).served t a

/-- Every thread gets its turn again and again, and every request is answered, with success. -/
structure Serving (step : σ → Action ι → σ) (session : σ → Session ι) (s0 : σ)
    (acts : Nat → Action ι) : Prop where
  succeeds : ∀ n, (acts n).Succeeds
  turns : ∀ r n, ∃ m, n ≤ m ∧ acts m = .reader r
  answers : ∀ n, (session (stateAt step s0 acts n)).requests ≠ [] →
    ∃ m k failed, n ≤ m ∧ k < (session (stateAt step s0 acts m)).requests.length ∧
      acts m = .answer k failed

/-- The actions of a run that serves everyone: a turn of a thread, a finished piece, or
the answer to the oldest request. -/
def serve : Option (Nat ⊕ ι) → Action ι
  | none => .answer 0 false
  | some (.inl p) => .complete p
  | some (.inr r) => .reader r

theorem serve_succeeds (x : Option (Nat ⊕ ι)) : (serve x).Succeeds := by
  cases x with
  | none => rfl
  | some x => cases x <;> trivial

/-- There is a schedule that serves a program, and in which all pieces arrive. -/
theorem exists_serving [Countable ι] (hosted : Hosted t step session) {I : σ → Prop}
    (hkeep : ∀ s a, I s → a.Succeeds → I (step s a))
    (hrequests : ∀ s r, I s →
      (session s).requests.length ≤ (session (step s (.reader r))).requests.length)
    {s0 : σ} (h0 : I s0) :
    ∃ acts, Serving step session s0 acts ∧ ∀ p n, Valid t p →
      ∃ m, n ≤ m ∧ p ∈ (session (stateAt step s0 acts m)).downloaded := by
  obtain ⟨f, hf⟩ := exists_recurring (Option (Nat ⊕ ι))
  have hagain (x : Option (Nat ⊕ ι)) (n : Nat) : ∃ m, n ≤ m ∧ serve (f m) = serve x := by
    obtain ⟨m, hm, hx⟩ := hf x n
    exact ⟨m, hm, by rw [hx]⟩
  have hinv (n : Nat) : I (stateAt step s0 (fun n => serve (f n)) n) := by
    have hreach : Reaches step Action.Succeeds s0 (stateAt step s0 (fun n => serve (f n)) n) :=
      reaches_stateAt _ s0 (fun n => serve_succeeds (f n)) n
    exact hreach.invariant (I := I) _ hkeep h0
  refine ⟨fun n => serve (f n), ⟨fun n => serve_succeeds (f n), fun r => hagain (some (.inr r)),
    ?_⟩, ?_⟩
  · intro n hne
    by_contra hnone
    -- what nobody answers stays
    have hkept (m : Nat) (hm : n ≤ m) :
        (session (stateAt step s0 (fun n => serve (f n)) m)).requests ≠ [] := by
      apply stateAt_persists step (P := fun s => (session s).requests ≠ []) hne _ hm
      intro m hm hreq
      have hpos := List.length_pos_iff.mpr hreq
      rw [stateAt]
      cases hx : f m with
      | none => exact absurd ⟨m, 0, false, hm, hpos, by rw [hx]; rfl⟩ hnone
      | some x =>
          cases x with
          | inl p =>
              rw [serve, hosted _ _ (by simp), Session.served]
              split <;> exact hreq
          | inr r => exact List.length_pos_iff.mp (hpos.trans_le (hrequests _ r (hinv m)))
    obtain ⟨m, hm, ha⟩ := hagain none n
    exact hnone ⟨m, 0, false, hm, List.length_pos_iff.mpr (hkept m hm), ha⟩
  · intro p n hv
    obtain ⟨m, hm, ha⟩ := hagain (some (.inl p.toNat)) n
    obtain ⟨hlow, hhigh⟩ := hv
    refine ⟨m + 1, by omega, ?_⟩
    rw [stateAt, ha, serve, hosted _ _ (by simp), Session.served, if_pos (by omega),
      Int.toNat_of_nonneg hlow]
    exact Finset.mem_insert_self _ _

end Program

/-! ## Runs that come to rest -/

section Rank

variable [DecidableEq ι] [Fintype ι] {σ S R : Type} {step : σ → Action ι → σ} {shared : σ → S}
  {thread : σ → ι → R} {next : ι → S → R → S × R} {base : S → Session ι} {weight : R → Nat}
  {polls : S → R → Prop}

/-- Three for what a thread weighs, as a turn may leave a request. -/
def systemRank (weight : R → Nat) (base : S → Session ι) (shared : σ → S) (thread : σ → ι → R) :
    σ → Nat :=
  total 3 weight (fun sh => (base sh).pending) shared thread

theorem systemRank_answer (weight : R → Nat)
    (threaded : Threaded step Action.reader shared thread next)
    (hosted : Hosted t step fun s => base (shared s)) (s : σ) {k : Nat} (failed : Bool)
    (hk : k < (base (shared s)).requests.length) :
    systemRank weight base shared thread (step s (.answer k failed)) <
      systemRank weight base shared thread s := by
  have hserved : base (shared (step s (.answer k failed))) =
      (base (shared s)).served t (.answer k failed) := hosted s _ (by simp)
  have hpending : (base (shared (step s (.answer k failed)))).pending + 1 =
      (base (shared s)).pending := by
    rw [hserved]
    exact Session.pending_answer failed hk
  exact threaded.total_world (fun sh => (base sh).pending) (by simp) hpending.le

/-- Where no turn raises the rank, no action does. -/
theorem systemRank_le (threaded : Threaded step Action.reader shared thread next)
    (hosted : Hosted t step fun s => base (shared s)) {s : σ}
    (hturn : ∀ r, Descends 3 weight (fun sh => (base sh).pending) polls (shared s) (thread s r)
      (next r (shared s) (thread s r))) (a : Action ι) :
    systemRank weight base shared thread (step s a) ≤ systemRank weight base shared thread s := by
  by_cases ha : ∃ r, a = .reader r
  · obtain ⟨r, rfl⟩ := ha
    exact (threaded.total_turn (hturn r)).elim le_of_lt And.right
  · have hserved : base (shared (step s a)) = (base (shared s)).served t a :=
      hosted s a (not_exists.mp ha)
    have hpending : (base (shared (step s a))).pending ≤ (base (shared s)).pending := by
      rw [hserved]
      exact Session.pending_served_le
    exact threaded.total_world (fun sh => (base sh).pending) (n := 0) (not_exists.mp ha)
      hpending

/-- The quiet part of a run of a program whose threads poll only as `polls` says. -/
abbrev QuietFrom (weight : R → Nat) (base : S → Session ι) (shared : σ → S) (thread : σ → ι → R)
    (polls : S → R → Prop) (step : σ → Action ι → σ) : σ → (Nat → Action ι) → Nat → Prop :=
  Quiet step Action.reader (systemRank weight base shared thread)
    (fun r s => polls (shared s) (thread s r))

theorem exists_quietFrom (threaded : Threaded step Action.reader shared thread next)
    (hosted : Hosted t step fun s => base (shared s)) {s0 : σ} {acts : Nat → Action ι}
    (hturn : ∀ n r, Descends 3 weight (fun sh => (base sh).pending) polls
      (shared (stateAt step s0 acts n)) (thread (stateAt step s0 acts n) r)
      (next r (shared (stateAt step s0 acts n)) (thread (stateAt step s0 acts n) r))) :
    ∃ N, QuietFrom weight base shared thread polls step s0 acts N := by
  apply exists_quiet
  · exact fun n => systemRank_le threaded hosted (hturn n) (acts n)
  · intro n r hr
    have hless := threaded.total_turn (hturn n r)
    rw [stateAt, hr]
    exact hless.imp_right And.left

section Quiet

variable {s0 : σ} {acts : Nat → Action ι} {N n : Nat} {r : ι} {x y : R} {p : Int}

/-- In the quiet part no request is outstanding. -/
theorem QuietFrom.requests_nil (hq : QuietFrom weight base shared thread polls step s0 acts N)
    (threaded : Threaded step Action.reader shared thread next)
    (hosted : Hosted t step fun s => base (shared s))
    (hserving : Serving step (fun s => base (shared s)) s0 acts) (hn : N ≤ n) :
    (base (shared (stateAt step s0 acts n))).requests = [] := by
  by_contra hne
  obtain ⟨m, k, failed, hm, hk, ha⟩ := hserving.answers n hne
  have hlt := systemRank_answer weight threaded hosted _ failed hk
  have heq := hq.still m (hn.trans hm)
  rw [stateAt, ha] at heq
  omega

/-- Nobody pops alerts at `x` to look for the buffer of `p` at `y`, and back: one pop brings a
buffer under way into the map. -/
theorem QuietFrom.not_polling (hq : QuietFrom weight base shared thread polls step s0 acts N)
    (threaded : Threaded step Action.reader shared thread next)
    (hosted : Hosted t step fun s => base (shared s))
    (hserving : Serving step (fun s => base (shared s)) s0 acts)
    (hchange : ∀ n, ∃ who, Session.Change t True (base (shared (stateAt step s0 acts n))) who
      (base (shared (stateAt step s0 acts (n + 1)))))
    (hpop : ∀ sh, (next r sh x).2 = y ∧ base (next r sh x).1 = (base sh).getPieceBuffers)
    (hfind : ∀ sh, polls sh y → (base sh).piece_buffer_map p = none ∧ (next r sh y).2 = x)
    (hfly : ∀ n, thread (stateAt step s0 acts n) r = x →
      (base (shared (stateAt step s0 acts n))).InFlight p) (hn : N ≤ n) :
    thread (stateAt step s0 acts n) r ≠ x ∧ thread (stateAt step s0 acts n) r ≠ y := by
  have hpopping (n : Nat) (hn : N ≤ n) : thread (stateAt step s0 acts n) r ≠ x := by
    intro hx
    obtain ⟨m, hm, hr, hsame⟩ := threaded.next_turn (hserving.turns r) n
    rw [hx] at hsame
    obtain ⟨hnext, hshared⟩ := threaded.stateAt_turn hr hsame
    have hfound : ((base (shared (stateAt step s0 acts (m + 1)))).piece_buffer_map p).isSome := by
      rw [hshared, (hpop _).2]
      apply Session.foldl_storeAlert_isSome
      rcases hfly m hsame with h | h | h
      · exact Or.inl h
      · rw [hq.requests_nil threaded hosted hserving (hn.trans hm)] at h
        cases h
      · exact Or.inr h
    -- the next turn is at the search, which now finds it
    obtain ⟨m', hm', hr', hsame'⟩ := threaded.next_turn (hserving.turns r) (m + 1)
    rw [hnext, (hpop _).1] at hsame'
    have hpolls := hq.polls m' (by omega) r hr'
    rw [hsame'] at hpolls
    have hfound' := (Session.later (f := fun n => base (shared (stateAt step s0 acts n))) hchange
      hm').2 p hfound
    rw [(hfind _ hpolls).1] at hfound'
    cases hfound'
  refine ⟨hpopping n hn, fun hy => ?_⟩
  -- a search that finds nothing goes back to the pop
  obtain ⟨m, hm, hr, hsame⟩ := threaded.next_turn (hserving.turns r) n
  rw [hy] at hsame
  have hpolls := hq.polls m (hn.trans hm) r hr
  rw [hsame] at hpolls
  have hback := (threaded.stateAt_turn hr hsame).1
  rw [(hfind _ hpolls).2] at hback
  exact hpopping (m + 1) (by omega) hback

/-- A thread that polls at `x` goes on to `y`, and from there back to `x`. -/
theorem QuietFrom.goes_round (hq : QuietFrom weight base shared thread polls step s0 acts N)
    (threaded : Threaded step Action.reader shared thread next)
    (hx : ∀ sh, polls sh x → (next r sh x).2 = y) (hy : ∀ sh, (next r sh y).2 = x) (hn : N ≤ n)
    (hwait : thread (stateAt step s0 acts n) r = x ∨ thread (stateAt step s0 acts n) r = y)
    {m : Nat} (hm : n ≤ m) :
    thread (stateAt step s0 acts m) r = x ∨ thread (stateAt step s0 acts m) r = y := by
  apply threaded.persists (P := fun z => z = x ∨ z = y) hwait _ hm
  intro m hm hr hz
  rcases hz with hz | hz
  · right
    have hpolls := hq.polls m (hn.trans hm) r hr
    rw [hz] at hpolls
    rw [(threaded.stateAt_turn hr hz).1, hx _ hpolls]
  · left
    rw [(threaded.stateAt_turn hr hz).1, hy]

/-- So nobody waits at `x` for a piece that arrives. -/
theorem QuietFrom.not_waiting (hq : QuietFrom weight base shared thread polls step s0 acts N)
    (threaded : Threaded step Action.reader shared thread next)
    (hserving : Serving step (fun s => base (shared s)) s0 acts)
    (hchange : ∀ n, ∃ who, Session.Change t True (base (shared (stateAt step s0 acts n))) who
      (base (shared (stateAt step s0 acts (n + 1)))))
    (hx : ∀ sh, polls sh x → (next r sh x).2 = y ∧ p ∉ (base sh).downloaded)
    (hy : ∀ sh, (next r sh y).2 = x)
    (harrives : ∃ m, p ∈ (base (shared (stateAt step s0 acts m))).downloaded) (hn : N ≤ n) :
    ¬ (thread (stateAt step s0 acts n) r = x ∨ thread (stateAt step s0 acts n) r = y) := by
  intro hwait
  obtain ⟨m0, hdown⟩ := harrives
  -- from there on a turn at the test would end the wait
  have hhave (m : Nat) (hm : max n m0 ≤ m) : thread (stateAt step s0 acts m) r ≠ x := by
    intro hz
    obtain ⟨m', hm', hr, hsame⟩ := threaded.next_turn (hserving.turns r) m
    have hpolls := hq.polls m' (by omega) r hr
    rw [hsame, hz] at hpolls
    have hlater := (Session.later (f := fun n => base (shared (stateAt step s0 acts n))) hchange
      (show m0 ≤ m' by omega)).1
    exact (hx _ hpolls).2 (hlater hdown)
  rcases hq.goes_round threaded (fun sh h => (hx sh h).1) hy hn hwait
    (le_max_left n m0) with hz | hz
  · exact hhave _ le_rfl hz
  · obtain ⟨m, hm, hr, hsame⟩ := threaded.next_turn (hserving.turns r) (max n m0)
    rw [hz] at hsame
    have hback := (threaded.stateAt_turn hr hsame).1
    rw [hy] at hback
    exact hhave (m + 1) (by omega) hback

end Quiet

end Rank

end BitFS.Read
