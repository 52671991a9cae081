import LibHpack.Buffer.Oom

/-!
# LibHpack.Buffer.MemMgr — allocations that fail on schedule (libchula-qa mem_mgr.c)

The allocator that the tests of libchula run the buffers with.  It counts what it is asked for, and after `fail_after` of it
refuses memory, until `recover_after` more have been counted.  A call on a buffer asks for memory once at most, so the counter is
not ahead of the run (`OnSchedule`); hence no more than `recover_after` calls of a run return `ret_nomem`, and none of its first
`fail_after` (`scheduled_failures`).
-/

namespace LibHpack.Oom

open RawBuffer

/-- `chula_mem_policy_sched_fail_t`, with the `frozen` of the manager. -/
structure SchedFail where
  counter : UInt32
  failAfter : UInt32
  recoverAfter : UInt32
  frozen : Bool
  deriving DecidableEq, Repr

/-- `chula_mem_policy_sched_fail_init`. -/
def chulaMemPolicySchedFailInit (failAfter recoverAfter : UInt32) : SchedFail := ⟨0, failAfter, recoverAfter, false⟩

/-- `_after_malloc`, and `_after_realloc`, which prints another letter; the system has the memory. -/
def afterMalloc (policy : SchedFail) : Bool × SchedFail :=
  if policy.frozen then (true, policy)
  else
    let policy := { policy with counter := policy.counter + 1 }
    if policy.counter > policy.failAfter ∧ policy.counter - policy.failAfter ≤ policy.recoverAfter then (false, policy)
    else (true, policy)

/-- `_after_free`. -/
def afterFree (policy : SchedFail) : SchedFail :=
  if policy.frozen then policy else { policy with counter := policy.counter + 1 }

/-- `chula_mem_mgr_freeze`. -/
def chulaMemMgrFreeze (policy : SchedFail) : SchedFail := { policy with frozen := true }

/-- `chula_mem_mgr_thaw`. -/
def chulaMemMgrThaw (policy : SchedFail) : SchedFail := { policy with frozen := false }

/-- What the rest of a test does to the policy. -/
inductive Elsewhere : SchedFail → SchedFail → Prop
  | malloc (p : SchedFail) : Elsewhere p (afterMalloc p).2
  | free (p : SchedFail) : Elsewhere p (afterFree p)
  | freeze (p : SchedFail) : Elsewhere p (chulaMemMgrFreeze p)
  | thaw (p : SchedFail) : Elsewhere p (chulaMemMgrThaw p)

/-- The schedule stays, and the counter moves on by one at most. -/
structure Ticks (p p' : SchedFail) : Prop where
  failAfter : p'.failAfter = p.failAfter
  recoverAfter : p'.recoverAfter = p.recoverAfter
  counter : p'.counter = p.counter ∨ p'.counter = p.counter + 1

/-- The part of the schedule in which memory is refused. -/
def Lasts (f r : UInt32) (p : SchedFail) : Prop :=
  p.frozen = false ∧ f.toNat ≤ p.counter.toNat ∧ p.counter.toNat < f.toNat + r.toNat

theorem Ticks.refl (p : SchedFail) : Ticks p p := ⟨rfl, rfl, .inl rfl⟩

theorem afterMalloc_ticks (p : SchedFail) : Ticks p (afterMalloc p).2 := by
  rw [afterMalloc]
  split
  · exact .refl p
  · dsimp only
    split
    all_goals exact ⟨rfl, rfl, .inr rfl⟩

theorem ticks_of_afterMalloc {p p' : SchedFail} {ok : Bool} (h : afterMalloc p = (ok, p')) : Ticks p p' := by
  have hticks := afterMalloc_ticks p
  rwa [h] at hticks

theorem Elsewhere.ticks {p p' : SchedFail} (h : Elsewhere p p') : Ticks p p' := by
  cases h with
  | malloc => exact afterMalloc_ticks p
  | free =>
    rw [afterFree]
    split
    · exact .refl p
    · exact ⟨rfl, rfl, .inr rfl⟩
  | freeze => exact ⟨rfl, rfl, .inl rfl⟩
  | thaw => exact ⟨rfl, rfl, .inl rfl⟩

/-- When memory is refused: the counter that wraps to zero is below every `fail_after`. -/
theorem afterMalloc_refuses_iff (p : SchedFail) :
    (afterMalloc p).1 = false ↔ Lasts p.failAfter p.recoverAfter p ∧ p.counter.toNat + 1 < 2 ^ 32 := by
  have hlt := p.counter.toNat_lt
  have hnext : (p.counter + 1).toNat = (p.counter.toNat + 1) % 2 ^ 32 := UInt32.toNat_add ..
  have hwindow : p.counter + 1 > p.failAfter ∧ p.counter + 1 - p.failAfter ≤ p.recoverAfter ↔
      p.failAfter.toNat ≤ p.counter.toNat ∧
        p.counter.toNat < p.failAfter.toNat + p.recoverAfter.toNat ∧ p.counter.toNat + 1 < 2 ^ 32 := by
    rw [gt_iff_lt, UInt32.lt_iff_toNat_lt, UInt32.le_iff_toNat_le]
    by_cases hafter : p.failAfter.toNat < (p.counter + 1).toNat
    · rw [UInt32.toNat_sub_of_le _ _ (UInt32.le_iff_toNat_le.mpr hafter.le)]
      omega
    · omega
  rw [Lasts, and_assoc, and_assoc, ← hwindow, afterMalloc]
  cases p.frozen with
  | true => exact ⟨nofun, fun h => nomatch h.1⟩
  | false =>
    rw [if_neg Bool.false_ne_true]
    dsimp only
    split
    case isTrue hin => exact ⟨fun _ => ⟨rfl, hin⟩, fun _ => rfl⟩
    case isFalse hout => exact ⟨nofun, fun h => absurd h.2 hout⟩

/-! ### Runs -/

/-- The call returned `ret_nomem`. -/
def refused (e : Option (BufferOp × MemRet)) : Bool := e.any fun c => c.2 = .nomem

/-- The calls that returned `ret_nomem`. -/
def refusals (log : OomLog) : ℕ := log.countP refused

theorem refusals_concat (log : OomLog) (e : Option (BufferOp × MemRet)) :
    refusals (log ++ [e]) = refusals log + if refused e then 1 else 0 := by
  rw [refusals, List.countP_append, List.countP_singleton, refusals]

theorem refusals_take_concat (log : OomLog) (n : ℕ) {e : Option (BufferOp × MemRet)} (he : refused e → n ≤ log.length) :
    refusals ((log ++ [e]).take n) = refusals (log.take n) := by
  obtain hlt | hle := Nat.lt_or_ge log.length n
  · have hcalm : ¬ refused e := fun h => absurd (he h) (Nat.not_le.mpr hlt)
    rw [List.take_of_length_le (List.length_append.trans_le hlt), List.take_of_length_le hlt.le, refusals_concat, if_neg hcalm,
      Nat.add_zero]
  · rw [List.take_append_of_le_length hle]

/-- Where the policy stands after a run. -/
structure OnSchedule (f r : UInt32) (log : OomLog) (p : SchedFail) : Prop where
  failAfter : p.failAfter = f
  recoverAfter : p.recoverAfter = r
  counter_le : p.counter.toNat ≤ log.length
  refusals_le : refusals log ≤ min (p.counter.toNat - f.toNat) r.toNat
  early : refusals (log.take f.toNat) = 0

section OnSchedule

variable {f r : UInt32} {log : OomLog} {p p' : SchedFail} {e : Option (BufferOp × MemRet)}

theorem Ticks.toNat_counter (h : Ticks p p') (hlt : p.counter.toNat + 1 < 2 ^ 32) :
    p'.counter.toNat = p.counter.toNat ∨ p'.counter.toNat = p.counter.toNat + 1 := by
  obtain hsame | hnext := h.counter
  · exact .inl (congrArg UInt32.toNat hsame)
  · rw [hnext, UInt32.toNat_add]
    exact .inr (Nat.mod_eq_of_lt hlt)

/-- One more step.  A refusal takes the counter on, and falls into the schedule. -/
theorem OnSchedule.concat (h : OnSchedule f r log p) (hp : Ticks p p') (hlt : p.counter.toNat + 1 < 2 ^ 32)
    (he : refused e → f.toNat ≤ p.counter.toNat ∧ p.counter.toNat < f.toNat + r.toNat ∧
      p'.counter.toNat = p.counter.toNat + 1) : OnSchedule f r (log ++ [e]) p' := by
  have hcounter := hp.toNat_counter hlt
  have hle := h.counter_le
  have hrefusals := h.refusals_le
  refine ⟨hp.failAfter.trans h.failAfter, hp.recoverAfter.trans h.recoverAfter, ?_, ?_, ?_⟩
  · rw [List.length_append, List.length_singleton]
    omega
  · rw [refusals_concat]
    split
    case isTrue hrefused =>
      obtain ⟨hafter, hbefore, hnext⟩ := he hrefused
      omega
    case isFalse => omega
  · rw [refusals_take_concat log _ fun hrefused => (he hrefused).1.trans hle]
    exact h.early

theorem OnSchedule.granted (h : OnSchedule f r log p) (hp : Ticks p p') (he : refused e = false)
    (hlen : log.length + 1 < 2 ^ 32) : OnSchedule f r (log ++ [e]) p' := by
  have hle := h.counter_le
  refine h.concat hp (by omega) fun hrefused => ?_
  rw [he] at hrefused
  cases hrefused

theorem OnSchedule.refusal (h : OnSchedule f r log p) (hp : afterMalloc p = (false, p')) :
    OnSchedule f r (log ++ [e]) p' := by
  obtain ⟨⟨hfrozen, hafter, hbefore⟩, hlt⟩ := (afterMalloc_refuses_iff p).mp (congrArg Prod.fst hp)
  rw [h.failAfter] at hafter hbefore
  rw [h.recoverAfter] at hbefore
  refine h.concat (ticks_of_afterMalloc hp) hlt fun _ => ⟨hafter, hbefore, ?_⟩
  -- Memory is refused only by a policy that counts.
  rw [afterMalloc, hfrozen, if_neg Bool.false_ne_true] at hp
  dsimp only at hp
  split at hp
  · cases hp
    rw [UInt32.toNat_add]
    exact Nat.mod_eq_of_lt hlt
  · cases hp

variable {b : RawBuffer}

theorem OomRuns.onSchedule (h : OomRuns afterMalloc Elsewhere (chulaMemPolicySchedFailInit f r) log b p) :
    log.length < 2 ^ 32 → OnSchedule f r log p := by
  induction h with
  | init => exact fun _ => ⟨rfl, rfl, Nat.le_refl 0, Nat.zero_le _, by rw [List.take_nil]; rfl⟩
  | call hrun hop hstep ih =>
    intro hlen
    rw [List.length_append, List.length_singleton] at hlen
    have hsched := ih (Nat.lt_of_succ_lt hlen)
    obtain ⟨m', halloc, hfails⟩ | ⟨b', m', hm', hok, -⟩ := step_cases afterMalloc _ (oomRuns_stores hrun) hop
    · cases hstep.symm.trans hfails
      exact hsched.refusal halloc
    · cases hstep.symm.trans hok
      refine hsched.granted ?_ rfl hlen
      obtain rfl | halloc := hm'
      · exact .refl _
      · exact ticks_of_afterMalloc halloc
  | environment hrun henv ih =>
    intro hlen
    rw [List.length_append, List.length_singleton] at hlen
    exact (ih (Nat.lt_of_succ_lt hlen)).granted henv.ticks rfl hlen

/-- **Scheduled failures.**  In every run that the counter can count, none of the first `fail_after` calls returns `ret_nomem`,
and no more than `recover_after` calls do.  A further call returns it only while the schedule lasts; and while it lasts, a call
that returns `ret_ok` has not asked for memory. -/
theorem scheduled_failures (h : OomRuns afterMalloc Elsewhere (chulaMemPolicySchedFailInit f r) log b p)
    (hlen : log.length + 1 < 2 ^ 32) :
    refusals (log.take f.toNat) = 0 ∧ refusals log ≤ r.toNat ∧
      ∀ op : BufferOp, op.Within (survivors log) → ∃ ret b' p', step afterMalloc p b op = .ok (ret, b', p') ∧
        (ret = .nomem → Lasts f r p) ∧ (ret = .ok → Lasts f r p → p' = p) := by
  have hsched := h.onSchedule (Nat.lt_of_succ_lt hlen)
  refine ⟨hsched.early, hsched.refusals_le.trans (Nat.min_le_right ..), fun op hop => ?_⟩
  have hrefuses := afterMalloc_refuses_iff p
  rw [hsched.failAfter, hsched.recoverAfter] at hrefuses
  obtain ⟨p', halloc, hfails⟩ | ⟨b', p', hp', hok, -⟩ := step_cases afterMalloc p (oomRuns_stores h) hop
  · exact ⟨.nomem, b, p', hfails, fun _ => (hrefuses.mp (congrArg Prod.fst halloc)).1, nofun⟩
  · refine ⟨.ok, b', p', hok, nofun, fun _ hlasts => ?_⟩
    obtain hsame | halloc := hp'
    · exact hsame
    · have hle := hsched.counter_le
      have hno := hrefuses.mpr ⟨hlasts, by omega⟩
      rw [halloc] at hno
      cases hno

end OnSchedule

/-- One failure from the first call on: the first octet is refused. -/
theorem scheduled_failures_first : ∃ (b : RawBuffer) (p : SchedFail),
    OomRuns afterMalloc Elsewhere (chulaMemPolicySchedFailInit 0 1) [some (.add [97], .nomem)] b p ∧
      refusals [some (.add [97], .nomem)] ≤ 1 := by
  have hrefused : afterMalloc (chulaMemPolicySchedFailInit 0 1) = (false, ⟨1, 0, 1, false⟩) := by decide
  have hstep : step afterMalloc (chulaMemPolicySchedFailInit 0 1) chulaBufInit (.add [97]) =
      .ok (.nomem, chulaBufInit, ⟨1, 0, 1, false⟩) := by
    simp [step, chulaBufferAdd, reallocIncBufsize, hrefused, chulaBufInit, toUint32, toInt, toSizeT]
  have hinit : OomRuns afterMalloc Elsewhere (chulaMemPolicySchedFailInit 0 1) [] chulaBufInit _ := .init
  have hrun := hinit.call (by decide) hstep
  exact ⟨_, _, hrun, (scheduled_failures hrun (by simp)).2.1⟩

end LibHpack.Oom
