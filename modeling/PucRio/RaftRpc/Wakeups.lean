import PucRio.RaftRpc.Scheduler
import Mathlib.Algebra.Order.Group.Int
import Mathlib.Data.List.TakeWhile

/-! Exactly which runs of the scheduler keep one record for each coroutine that waits. -/
namespace PucRio.RaftRpc.Scheduler

section Lists
variable {α : Type} [DecidableEq α]

theorem count_set_add {l : List α} {i : ℕ} {a : α} (h : l[i]? = some a) (b x : α) :
    (l.set i b).count x+(if a = x then 1 else 0) = l.count x+(if b = x then 1 else 0) := by
  induction l generalizing i with
  | nil => cases h
  | cons c l ih =>
    cases i with
    | zero =>
      obtain rfl := Option.some.inj h
      simp only [List.set_cons_zero,List.count_cons,beq_iff_eq]
      omega
    | succ i =>
      have hi := ih h
      simp only [List.set_cons_succ,List.count_cons]
      omega

end Lists

section Listed
variable {τ : Type} [LinearOrder τ] {status status' : List (Status τ)} {wakeup_times wt' : List τ}
  {coList rest : List Co} {wakeup w : τ} {co : Co} {a b : Status τ}

/-- The coroutines in the list of a wake time are those that wait until then. When none does, there may
be one left that has been resumed, with a record that has been left as well. -/
inductive Listed (status : List (Status τ)) (wakeup_times : List τ) (coList : List Co)
    (wakeup : τ) : Prop
  | idle : status.count (.waiting wakeup) = 0 → coList.length ≤ 1 →
      (coList ≠ [] → wakeup ∈ wakeup_times) → Listed status wakeup_times coList wakeup
  | waited : coList ≠ [] → coList.Nodup → (∀ co ∈ coList, status[co]? = some (.waiting wakeup)) →
      status.count (.waiting wakeup) = coList.length → wakeup_times.count wakeup = coList.length →
      Listed status wakeup_times coList wakeup

theorem Listed.count_eq (h : Listed status wakeup_times coList wakeup)
    (hw : .waiting wakeup ∈ status) :
    wakeup_times.count wakeup = status.count (.waiting wakeup) := by
  cases h with
  | idle hnone => exact absurd hw (List.count_eq_zero.mp hnone)
  | waited _ _ _ hcount hrecords => rw [hcount,hrecords]

theorem Listed.congr (h : Listed status wakeup_times coList wakeup)
    (hs : ∀ co : Co, status[co]? = some (.waiting wakeup) → status'[co]? = some (.waiting wakeup))
    (hc : status'.count (.waiting wakeup) = status.count (.waiting wakeup))
    (ht : wt'.count wakeup = wakeup_times.count wakeup) : Listed status' wt' coList wakeup := by
  cases h with
  | idle hnone hlen hleft =>
    refine .idle (hc.trans hnone) hlen fun hne => ?_
    rw [← List.count_pos_iff,ht]
    exact List.count_pos_iff.mpr (hleft hne)
  | waited hne hnodup hall hcount hrecords =>
    exact .waited hne hnodup (fun co hco => hs co (hall co hco)) (hc.trans hcount)
      (ht.trans hrecords)

/-- What others do does not matter. -/
theorem Listed.set (h : Listed status wakeup_times coList wakeup) (hold : status[co]? = some a)
    (ha : a ≠ .waiting wakeup) (hb : b ≠ .waiting wakeup) :
    Listed (status.set co b) wakeup_times coList wakeup := by
  apply h.congr
  · intro co' hco'
    have hne : co ≠ co' := by
      rintro rfl
      exact ha (Option.some.inj (hold.symm.trans hco'))
    rw [List.getElem?_set_ne hne]
    exact hco'
  · have hcount := count_set_add hold b (.waiting wakeup)
    rwa [if_neg ha,if_neg hb] at hcount
  · rfl

theorem Listed.wait (h : Listed status wakeup_times coList wakeup) (hold : status[co]? = some a)
    (ha : a ≠ .waiting wakeup) (hleft : wakeup ∈ wakeup_times → .waiting wakeup ∈ status) :
    Listed (status.set co (.waiting wakeup)) (wakeup_times++[wakeup]) (coList++[co]) wakeup := by
  have hcount := count_set_add hold (.waiting wakeup) (.waiting wakeup)
  rw [if_neg ha,if_pos rfl,Nat.add_zero] at hcount
  have hlt : co < status.length := (List.getElem?_eq_some_iff.mp hold).1
  have hself : (status.set co (.waiting wakeup))[co]? = some (.waiting wakeup) := by
    rw [List.getElem?_set_self hlt]
  cases h with
  | idle hnone hlen hstale =>
    have hnot : wakeup ∉ wakeup_times := fun hmem => List.count_eq_zero.mp hnone (hleft hmem)
    obtain rfl : coList = [] := not_not.mp fun hne => hnot (hstale hne)
    refine .waited (by simp) (by simp) ?_ ?_ ?_
    · intro co' hco'
      rw [List.mem_singleton.mp hco']
      exact hself
    · rw [hcount,hnone]
      rfl
    · rw [List.count_append,List.count_eq_zero.mpr hnot,List.count_singleton_self]
      rfl
  | waited hne hnodup hall hwaiting hrecords =>
    have hnot : co ∉ coList := fun hmem => ha (Option.some.inj (hold.symm.trans (hall co hmem)))
    refine .waited (by simp) ?_ ?_ ?_ ?_
    · exact List.nodup_append.mpr ⟨hnodup,by simp,by
        intro x hx y hy
        rw [List.mem_singleton.mp hy]
        exact fun heq => hnot (heq ▸ hx)⟩
    · intro co' hco'
      obtain hco' | hco' := List.mem_append.mp hco'
      · have hne : co ≠ co' := by
          rintro rfl
          exact hnot hco'
        rw [List.getElem?_set_ne hne]
        exact hall co' hco'
      · rw [List.mem_singleton.mp hco']
        exact hself
    · rw [hcount,hwaiting,List.length_append,List.length_singleton]
    · rw [List.count_append,hrecords,List.count_singleton_self,List.length_append,
        List.length_singleton]

theorem living_of_waiting (hne : coList ≠ [])
    (hall : ∀ co ∈ coList, status[co]? = some (.waiting wakeup)) :
    living status coList = coList := by
  cases coList with
  | nil => exact absurd rfl hne
  | cons co coList =>
    apply List.dropWhile_cons_of_neg
    rw [hall co List.mem_cons_self]
    simp

theorem length_living_le (status : List (Status τ)) (coList : List Co) :
    (living status coList).length ≤ coList.length :=
  (List.dropWhile_sublist _).length_le

theorem count_set_running (hnone : status.count (.waiting wakeup) = 0) :
    (status.set co .running).count (.waiting wakeup) = 0 := by
  apply List.count_eq_zero.mpr
  intro hmem
  obtain hmem | hmem := List.mem_or_eq_of_mem_set hmem
  · exact List.count_eq_zero.mp hnone hmem
  · cases hmem

theorem count_set_waiting (hco : status[co]? = some (.waiting wakeup)) :
    (status.set co .running).count (.waiting wakeup)+1 = status.count (.waiting wakeup) := by
  have hcount := count_set_add hco .running (.waiting wakeup)
  rwa [if_pos rfl,if_neg (by simp),Nat.add_zero] at hcount

/-- A list in which nobody is left to resume. -/
theorem Listed.drained (h : Listed status wakeup_times coList wakeup)
    (hl : living status coList = []) (wt' : List τ) : Listed status wt' [] wakeup := by
  cases h with
  | idle hnone => exact .idle hnone (Nat.zero_le _) fun hne => absurd rfl hne
  | waited hne _ hall =>
    rw [living_of_waiting hne hall] at hl
    exact absurd hl hne

/-- The first one is resumed when a record has been taken off. -/
theorem Listed.taken (h : Listed status (wakeup::wakeup_times) coList wakeup)
    (hl : living status coList = co::rest) :
    Listed (status.set co .running) wakeup_times rest wakeup := by
  cases h with
  | idle hnone hlen =>
    have hle := (length_living_le status coList).trans hlen
    rw [hl,List.length_cons] at hle
    obtain rfl : rest = [] := List.length_eq_zero_iff.mp (by omega)
    exact .idle (count_set_running hnone) (Nat.zero_le _) fun hne => absurd rfl hne
  | waited hne hnodup hall hwaiting hrecords =>
    rw [living_of_waiting hne hall] at hl
    obtain rfl := hl
    have hcount := count_set_waiting (hall co List.mem_cons_self)
    obtain ⟨hnot,hnodup⟩ := List.nodup_cons.mp hnodup
    rw [List.length_cons] at hwaiting
    rw [List.count_cons_self,List.length_cons] at hrecords
    by_cases hrest : rest = []
    · obtain rfl := hrest
      rw [List.length_nil] at hwaiting
      exact .idle (by omega) (Nat.zero_le _) fun hne => absurd rfl hne
    · refine .waited hrest hnodup ?_ (by omega) (by omega)
      intro co' hco'
      have hne : co ≠ co' := by
        rintro rfl
        exact hnot hco'
      rw [List.getElem?_set_ne hne]
      exact hall co' (List.mem_cons_of_mem _ hco')

/-- One more is resumed, and no other one waits. -/
theorem Listed.kept (h : Listed status wakeup_times coList wakeup)
    (hl : living status coList = co::rest)
    (hone : status[co]? = some (.waiting wakeup) → status.count (.waiting wakeup) ≤ 1) :
    Listed (status.set co .running) wakeup_times rest wakeup := by
  obtain ⟨hcount,hlen⟩ : (status.set co .running).count (.waiting wakeup) = 0 ∧
      coList.length ≤ 1 := by
    cases h with
    | idle hnone hlen => exact ⟨count_set_running hnone,hlen⟩
    | waited hne _ hall hwaiting =>
      rw [living_of_waiting hne hall] at hl
      have hco := hall co (hl ▸ List.mem_cons_self)
      have hcount := count_set_waiting hco
      have hone := hone hco
      omega
  have hle := (length_living_le status coList).trans hlen
  rw [hl,List.length_cons] at hle
  obtain rfl : rest = [] := List.length_eq_zero_iff.mp (by omega)
  exact .idle hcount (Nat.zero_le _) fun hne => absurd rfl hne

/-- One that is not resumed through its list stays in it. -/
theorem Listed.left (h : Listed status wakeup_times coList wakeup)
    (hco : status[co]? = some (.waiting wakeup)) (hone : status.count (.waiting wakeup) ≤ 1)
    (ht : wt'.count wakeup = wakeup_times.count wakeup) :
    Listed (status.set co .running) wt' coList wakeup := by
  have hcount := count_set_waiting hco
  cases h with
  | idle hnone => omega
  | waited hne _ _ hwaiting hrecords =>
    refine .idle (by omega) (by omega) fun _ => ?_
    rw [← List.count_pos_iff,ht,hrecords]
    exact List.length_pos_iff.mpr hne

/-- Where another one waits, there is a record too many. -/
theorem Listed.surplus (h : Listed status wakeup_times coList wakeup)
    (hco : status[co]? = some (.waiting wakeup)) (hmore : ¬status.count (.waiting wakeup) ≤ 1)
    (ht : wt'.count wakeup = wakeup_times.count wakeup) :
    .waiting wakeup ∈ status.set co .running ∧
      wt'.count wakeup ≠ (status.set co .running).count (.waiting wakeup) := by
  have hcount := count_set_waiting hco
  have hmem : .waiting wakeup ∈ status.set co .running := List.count_pos_iff.mp (by omega)
  have heq := h.count_eq (List.mem_of_getElem? hco)
  exact ⟨hmem,by omega⟩

end Listed

section Steps
variable {τ : Type} [AddCommGroup τ] [LinearOrder τ] {s t : State τ} {a : Action τ}

/-- The steps, one by one. -/
inductive Step (s : State τ) : Action τ → State τ → Prop
  | createServant : (∀ now nextTimeout, s.control ≠ .select now nextTimeout) →
      Step s .createServant s.createServant
  | connect (proxy_stub : Stub) : s.control = .main → Step s (.call proxy_stub) (s.connect proxy_stub)
  | waitIncoming : s.control = .main → Step s .waitIncoming { s with control := .top }
  | call {co : Co} {back : Back τ} (proxy_stub : Stub) : s.control = .resumed co back →
      Step s (.call proxy_stub)
        (((s.connect proxy_stub).register s.sockets co).stop co back (.calling proxy_stub))
  | wait {co : Co} {back : Back τ} (now timeToWait : τ) : s.control = .resumed co back →
      Step s (.wait now timeToWait)
        ((s.record (now+timeToWait) co).stop co back (.waiting (now+timeToWait)))
  | finish {co : Co} {back : Back τ} : s.control = .resumed co back →
      Step s .finish (s.stop co back .dead)
  | clock (now : τ) : s.control = .top → Step s (.clock now)
      { s with
        wakeup_times := s.wakeup_times.insertionSort (· ≤ ·)
        control := .select now ((s.wakeup_times.insertionSort (· ≤ ·)).head?.map (· - now)) }
  | ready (recvt : List Socket) : Step s (.ready recvt) { s with control := .events recvt }
  | expired {wakeup : τ} {wakeup_times : List τ} : s.wakeup_times = wakeup::wakeup_times →
      Step s .timedOut ({ s with wakeup_times := wakeup_times }.resumeNext wakeup)
  | unrecorded : s.wakeup_times = [] → Step s .timedOut { s with control := .top }
  | event {recvt : List Socket} : s.control = .events recvt → Step s .next (s.event recvt)
  | timeout {wakeup : τ} : s.control = .timeout wakeup → Step s .next (s.resumeNext wakeup)

theorem step_cases (h : step s a = some t) : Step s a t := by
  unfold step at h
  split at h
  · next hc =>
    cases h
    exact .createServant fun _ _ heq => by cases hc.symm.trans heq
  · next hc =>
    cases h
    exact .connect _ hc
  · next hc =>
    cases h
    exact .waitIncoming hc
  · next hc =>
    cases h
    exact .createServant fun _ _ heq => by cases hc.symm.trans heq
  · next hc =>
    cases h
    exact .call _ hc
  · next hc =>
    cases h
    exact .wait _ _ hc
  · next hc =>
    cases h
    exact .finish hc
  · next hc =>
    cases h
    exact .clock _ hc
  · split_ifs at h
    cases h
    exact .ready _
  · split_ifs at h
    obtain rfl := Option.some.inj h
    split
    · next hw => exact .unrecorded hw
    · next hw => exact .expired hw
  · next hc =>
    cases h
    exact .event hc
  · next hc =>
    cases h
    exact .timeout hc
  · cases h

end Steps

section Resume
variable {τ : Type} {s : State τ} {co : Co} {back : Back τ}

@[simp] theorem unregister_status (s : State τ) (proxy_stub : Stub) :
    (s.unregister proxy_stub).status = s.status := by
  unfold State.unregister
  split <;> rfl

@[simp] theorem unregister_wakeup_times (s : State τ) (proxy_stub : Stub) :
    (s.unregister proxy_stub).wakeup_times = s.wakeup_times := by
  unfold State.unregister
  split <;> rfl

@[simp] theorem unregister_coroutines_by_wakeup (s : State τ) (proxy_stub : Stub) :
    (s.unregister proxy_stub).coroutines_by_wakeup = s.coroutines_by_wakeup := by
  unfold State.unregister
  split <;> rfl

theorem unregister_reader {proxy_stub : Stub} {sckt : Socket}
    (h : (s.unregister proxy_stub).coroutines_by_socket sckt = some co) :
    s.coroutines_by_socket sckt = some co := by
  unfold State.unregister at h
  split at h
  · exact h
  · next sckt' _ =>
    dsimp only at h
    obtain rfl | hne := eq_or_ne sckt sckt'
    · rw [Function.update_self] at h
      cases h
    · rwa [Function.update_of_ne hne] at h

theorem resume_status (s : State τ) (co : Co) (back : Back τ) :
    (s.resume co back).status = s.status.set co .running := rfl

theorem resume_control (s : State τ) (co : Co) (back : Back τ) :
    (s.resume co back).control = .resumed co back := rfl

@[simp] theorem resume_wakeup_times (s : State τ) (co : Co) (back : Back τ) :
    (s.resume co back).wakeup_times = s.wakeup_times := by
  unfold State.resume
  split <;> simp

@[simp] theorem resume_coroutines_by_wakeup (s : State τ) (co : Co) (back : Back τ) :
    (s.resume co back).coroutines_by_wakeup = s.coroutines_by_wakeup := by
  unfold State.resume
  split <;> simp

theorem resume_reader {sckt : Socket} {co' : Co}
    (h : (s.resume co back).coroutines_by_socket sckt = some co') :
    s.coroutines_by_socket sckt = some co' := by
  unfold State.resume at h
  split at h
  · exact unregister_reader h
  · exact h

end Resume

section Stop
variable {τ : Type} [LinearOrder τ] {s : State τ} {co : Co}

@[simp] theorem stop_status (s : State τ) (co : Co) (back : Back τ) (st : Status τ) :
    (s.stop co back st).status = s.status.set co st := by
  cases back <;> simp only [State.stop]
  split_ifs <;> rfl

@[simp] theorem stop_wakeup_times (s : State τ) (co : Co) (back : Back τ) (st : Status τ) :
    (s.stop co back st).wakeup_times = s.wakeup_times := by
  cases back <;> simp only [State.stop]
  split_ifs <;> rfl

@[simp] theorem stop_coroutines_by_wakeup (s : State τ) (co : Co) (back : Back τ)
    (st : Status τ) : (s.stop co back st).coroutines_by_wakeup = s.coroutines_by_wakeup := by
  cases back <;> simp only [State.stop]
  split_ifs <;> rfl

@[simp] theorem stop_coroutines_by_socket (s : State τ) (co : Co) (back : Back τ)
    (st : Status τ) : (s.stop co back st).coroutines_by_socket = s.coroutines_by_socket := by
  cases back <;> simp only [State.stop]
  split_ifs <;> rfl

/-- The loop goes on behind a coroutine that has stopped. -/
theorem stop_control (s : State τ) (co : Co) (back : Back τ) (st : Status τ) :
    (∃ recvt, (s.stop co back st).control = .events recvt) ∨
      ∃ wakeup, (s.stop co back st).control = .timeout wakeup := by
  cases back with
  | accepted recvt => exact .inl ⟨recvt,rfl⟩
  | client sckt recvt => exact .inl ⟨recvt,rfl⟩
  | timeout wakeup => exact .inr ⟨wakeup,rfl⟩

theorem reader_cases {sckt : Socket} (h : s.reader sckt = some co) :
    s.coroutines_by_socket sckt = some co :=
  (Option.filter_eq_some_iff.mp h).1

theorem resumeNext_nil {wakeup : τ} (h : living s.status (s.coroutines_by_wakeup wakeup) = []) :
    s.resumeNext wakeup = { s with
      coroutines_by_wakeup := Function.update s.coroutines_by_wakeup wakeup []
      control := .top } := by
  unfold State.resumeNext
  rw [h]

theorem resumeNext_cons {wakeup : τ} {rest : List Co}
    (h : living s.status (s.coroutines_by_wakeup wakeup) = co::rest) :
    s.resumeNext wakeup =
      { s with coroutines_by_wakeup :=
          Function.update s.coroutines_by_wakeup wakeup rest }.resume co (.timeout wakeup) := by
  unfold State.resumeNext
  rw [h]

end Stop

section Invariant
variable {τ : Type} [LinearOrder τ] {s : State τ} {co : Co} {back : Back τ}

/-- Every list is in order, and coroutines are known before they are in a table. -/
structure Invariant (s : State τ) : Prop where
  listed : ∀ wakeup, Listed s.status s.wakeup_times (s.coroutines_by_wakeup wakeup) wakeup
  running : ∀ co back, s.control = .resumed co back → s.status[co]? = some .running
  known : ∀ wakeup, ∀ co ∈ s.coroutines_by_wakeup wakeup, co < s.status.length
  readers : ∀ sckt co, s.coroutines_by_socket sckt = some co → co < s.status.length

theorem invariant_initial : Invariant (initial : State τ) where
  listed _ := .idle rfl (Nat.zero_le _) fun hne => absurd rfl hne
  running _ _ hc := by cases hc
  known _ _ hco := by cases hco
  readers _ _ hco := by cases hco

theorem Invariant.recorded (h : Invariant s) : s.Recorded :=
  fun wakeup hw => (h.listed wakeup).count_eq hw

/-- What the loop does with its own variables does not matter. -/
theorem Invariant.move (h : Invariant s) {c : Control τ} (hc : ∀ co back, c ≠ .resumed co back) :
    Invariant { s with control := c } :=
  ⟨h.listed,fun co back heq => absurd heq (hc co back),h.known,h.readers⟩

theorem Listed.resumed {status : List (Status τ)} {wakeup_times wt' : List τ} {coList : List Co}
    {wakeup : τ} (h : Listed status wakeup_times coList wakeup) (hlt : co < status.length)
    (hone : status[co]? = some (.waiting wakeup) → status.count (.waiting wakeup) ≤ 1)
    (ht : wt'.count wakeup = wakeup_times.count wakeup) :
    Listed (status.set co .running) wt' coList wakeup := by
  by_cases hco : status[co]? = some (.waiting wakeup)
  · exact h.left hco (hone hco) ht
  · have hset := h.set (b := .running) (List.getElem?_eq_getElem hlt)
      (fun heq => hco (by rw [List.getElem?_eq_getElem hlt,heq])) (by simp)
    exact hset.congr (fun _ h => h) rfl ht

/-- Afterwards the coroutine that has been resumed runs. -/
theorem invariant_resume (hlt : co < s.status.length)
    (hl : ∀ wakeup, Listed (s.status.set co .running) s.wakeup_times (s.coroutines_by_wakeup wakeup)
      wakeup)
    (hk : ∀ wakeup, ∀ co ∈ s.coroutines_by_wakeup wakeup, co < s.status.length)
    (hr : ∀ sckt co, s.coroutines_by_socket sckt = some co → co < s.status.length) :
    Invariant (s.resume co back) where
  listed wakeup := by
    rw [resume_status,resume_wakeup_times,resume_coroutines_by_wakeup]
    exact hl wakeup
  running co' back' hc := by
    rw [resume_control] at hc
    cases hc
    rw [resume_status,List.getElem?_set_self hlt]
  known wakeup co' hco' := by
    rw [resume_coroutines_by_wakeup] at hco'
    rw [resume_status,List.length_set]
    exact hk wakeup co' hco'
  readers sckt co' hco' := by
    rw [resume_status,List.length_set]
    exact hr sckt co' (resume_reader hco')

/-- Afterwards the coroutine is suspended or dead. -/
theorem invariant_stop {st : Status τ}
    (hl : ∀ wakeup, Listed (s.status.set co st) s.wakeup_times (s.coroutines_by_wakeup wakeup) wakeup)
    (hk : ∀ wakeup, ∀ co ∈ s.coroutines_by_wakeup wakeup, co < s.status.length)
    (hr : ∀ sckt co, s.coroutines_by_socket sckt = some co → co < s.status.length) :
    Invariant (s.stop co back st) where
  listed wakeup := by
    rw [stop_status,stop_wakeup_times,stop_coroutines_by_wakeup]
    exact hl wakeup
  running co' back' hc := by
    obtain ⟨recvt,hs⟩ | ⟨wakeup,hs⟩ := stop_control s co back st
    · cases hs.symm.trans hc
    · cases hs.symm.trans hc
  known wakeup co' hco' := by
    rw [stop_coroutines_by_wakeup] at hco'
    rw [stop_status,List.length_set]
    exact hk wakeup co' hco'
  readers sckt co' hco' := by
    rw [stop_coroutines_by_socket] at hco'
    rw [stop_status,List.length_set]
    exact hr sckt co' hco'

/-- The list of one wake time is shorter, and the rest is as before. -/
theorem invariant_resumeNext {expired : τ}
    (hnil : living s.status (s.coroutines_by_wakeup expired) = [] →
      Listed s.status s.wakeup_times [] expired)
    (hcons : ∀ co rest, living s.status (s.coroutines_by_wakeup expired) = co::rest →
      Listed (s.status.set co .running) s.wakeup_times rest expired)
    (hl : ∀ wakeup ≠ expired, Listed s.status s.wakeup_times (s.coroutines_by_wakeup wakeup) wakeup)
    (hone : ∀ co wakeup, (living s.status (s.coroutines_by_wakeup expired)).head? = some co →
      s.status[co]? = some (.waiting wakeup) →
        wakeup = expired ∨ s.status.count (.waiting wakeup) ≤ 1)
    (hk : ∀ wakeup, ∀ co ∈ s.coroutines_by_wakeup wakeup, co < s.status.length)
    (hr : ∀ sckt co, s.coroutines_by_socket sckt = some co → co < s.status.length) :
    Invariant (s.resumeNext expired) := by
  have hshorter {rest : List Co} (hrest : ∀ co ∈ rest, co < s.status.length) : ∀ wakeup,
      ∀ co ∈ Function.update s.coroutines_by_wakeup expired rest wakeup, co < s.status.length := by
    intro wakeup co hco
    obtain rfl | hne := eq_or_ne wakeup expired
    · rw [Function.update_self] at hco
      exact hrest co hco
    · rw [Function.update_of_ne hne] at hco
      exact hk wakeup co hco
  cases hlist : living s.status (s.coroutines_by_wakeup expired) with
  | nil =>
    rw [resumeNext_nil hlist]
    refine ⟨?_,?_,hshorter fun _ h => absurd h List.not_mem_nil,hr⟩
    swap
    · intro co back hc
      cases hc
    intro wakeup
    obtain rfl | hne := eq_or_ne wakeup expired
    · simp only [Function.update_self]
      exact hnil hlist
    · simp only [Function.update_of_ne hne]
      exact hl wakeup hne
  | cons co rest =>
    have hmem : ∀ co' ∈ co::rest, co' < s.status.length := fun co' hco' =>
      hk expired co' ((List.dropWhile_sublist _).subset (hlist ▸ hco'))
    have hlt := hmem co List.mem_cons_self
    rw [resumeNext_cons hlist]
    apply invariant_resume
    · exact hlt
    · intro wakeup
      obtain rfl | hne := eq_or_ne wakeup expired
      · simp only [Function.update_self]
        exact hcons co rest hlist
      · simp only [Function.update_of_ne hne]
        refine (hl wakeup hne).resumed hlt (fun hco => ?_) rfl
        rw [hlist] at hone
        exact (hone co wakeup rfl hco).resolve_left hne
    · exact hshorter fun co' hco' => hmem co' (List.mem_cons_of_mem _ hco')
    · exact hr

theorem Invariant.accept (h : Invariant s) (recvt : List Socket) : Invariant (s.accept recvt) where
  listed wakeup := by
    apply (h.listed wakeup).congr
    · intro co hco
      exact (List.getElem?_append_left (List.getElem?_eq_some_iff.mp hco).1).trans hco
    · simp [State.accept]
    · rfl
  running co back hc := by
    cases hc
    simp [State.accept]
  known wakeup co hco := by
    have hlt := h.known wakeup co hco
    simp only [State.accept,List.length_append,List.length_singleton]
    exact Nat.lt_succ_of_lt hlt
  readers sckt co hco := by
    have hlt := h.readers sckt co hco
    simp only [State.accept,List.length_append,List.length_singleton]
    exact Nat.lt_succ_of_lt hlt

/-- What `event` resumes is due. -/
theorem due_of_reader {sckt : Socket} {recvt : List Socket} (hc : s.control = .events (sckt::recvt))
    (hs : sckt ∉ s.servants_lst) (hr : s.reader sckt = some co) : s.due = some co := by
  rw [State.due,hc]
  simp only [if_neg hs]
  exact hr

theorem due_of_timeout {wakeup : τ} (hc : s.control = .timeout wakeup) :
    s.due = (living s.status (s.coroutines_by_wakeup wakeup)).head? := by
  rw [State.due,hc]

theorem Invariant.event (h : Invariant s) {recvt : List Socket} (hc : s.control = .events recvt)
    (hone : ∀ co wakeup, s.due = some co → s.status[co]? = some (.waiting wakeup) →
      s.status.count (.waiting wakeup) ≤ 1) : Invariant (s.event recvt) := by
  cases recvt with
  | nil => exact h.move fun _ _ hc => by cases hc
  | cons sckt recvt =>
    rw [State.event]
    split_ifs with hs
    · exact h.accept recvt
    cases hr : s.reader sckt with
    | none =>
      have hremove : Invariant (s.remove_socket sckt) := ⟨h.listed,h.running,h.known,h.readers⟩
      exact hremove.move fun _ _ hc => by cases hc
    | some co =>
      have hlt := h.readers sckt co (reader_cases hr)
      have hdue := due_of_reader hc hs hr
      exact invariant_resume hlt
        (fun wakeup => (h.listed wakeup).resumed hlt (hone co wakeup hdue) rfl) h.known h.readers

theorem Invariant.timeout (h : Invariant s) {wakeup : τ} (hc : s.control = .timeout wakeup)
    (hone : ∀ co wakeup, s.due = some co → s.status[co]? = some (.waiting wakeup) →
      s.status.count (.waiting wakeup) ≤ 1) : Invariant (s.resumeNext wakeup) := by
  rw [due_of_timeout hc] at hone
  apply invariant_resumeNext
  · exact fun hnil => (h.listed wakeup).drained hnil _
  · intro co rest hcons
    exact (h.listed wakeup).kept hcons (hone co wakeup (congrArg List.head? hcons))
  · exact fun wakeup' _ => h.listed wakeup'
  · exact fun co wakeup' hhead hco => .inr (hone co wakeup' hhead hco)
  · exact h.known
  · exact h.readers

theorem Invariant.expired (h : Invariant s) {expired : τ} {wakeup_times : List τ}
    (hw : s.wakeup_times = expired::wakeup_times)
    (hone : ∀ co wakeup, (living s.status (s.coroutines_by_wakeup expired)).head? = some co →
      s.status[co]? = some (.waiting wakeup) →
        wakeup = expired ∨ s.status.count (.waiting wakeup) ≤ 1) :
    Invariant ({ s with wakeup_times := wakeup_times }.resumeNext expired) := by
  have hl := h.listed
  rw [hw] at hl
  apply invariant_resumeNext
  · exact fun hnil => (hl expired).drained hnil _
  · exact fun co rest hcons => (hl expired).taken hcons
  · intro wakeup hne
    exact (hl wakeup).congr (fun _ hco => hco) rfl (List.count_cons_of_ne hne.symm).symm
  · exact hone
  · exact h.known
  · exact h.readers

/-- A coroutine that runs does not wait. -/
theorem Invariant.stop (h : Invariant s) (hc : s.control = .resumed co back) {st : Status τ}
    (hst : ∀ wakeup, st ≠ .waiting wakeup) : Invariant (s.stop co back st) := by
  apply invariant_stop
  · exact fun wakeup => (h.listed wakeup).set (h.running co back hc) (by simp) (hst wakeup)
  · exact h.known
  · exact h.readers

theorem Invariant.register (h : Invariant s) (sckt : Socket) (hlt : co < s.status.length) :
    Invariant (s.register sckt co) := by
  refine ⟨h.listed,h.running,h.known,?_⟩
  intro sckt' co' hco'
  obtain rfl | hne := eq_or_ne sckt' sckt
  · simp only [State.register,Function.update_self] at hco'
    cases hco'
    exact hlt
  · simp only [State.register,Function.update_of_ne hne] at hco'
    exact h.readers sckt' co' hco'

theorem Invariant.wait (h : Invariant s) (hc : s.control = .resumed co back) {wakeup : τ}
    (hleft : wakeup ∈ s.wakeup_times → .waiting wakeup ∈ s.status) :
    Invariant ((s.record wakeup co).stop co back (.waiting wakeup)) := by
  have hco := h.running co back hc
  have hlt : co < s.status.length := (List.getElem?_eq_some_iff.mp hco).1
  apply invariant_stop
  · intro wakeup'
    obtain rfl | hne := eq_or_ne wakeup' wakeup
    · simp only [State.record,Function.update_self]
      exact (h.listed wakeup').wait hco (by simp) hleft
    · simp only [State.record,Function.update_of_ne hne]
      have hset := (h.listed wakeup').set (b := .waiting wakeup) hco (by simp) (by simpa using hne.symm)
      refine hset.congr (fun _ hco => hco) rfl ?_
      rw [List.count_append,List.count_singleton,if_neg (by simpa using hne.symm),Nat.add_zero]
  · intro wakeup' co' hco'
    obtain rfl | hne := eq_or_ne wakeup' wakeup
    · simp only [State.record,Function.update_self] at hco'
      obtain hco' | hco' := List.mem_append.mp hco'
      · exact h.known wakeup' co' hco'
      · rw [List.mem_singleton.mp hco']
        exact hlt
    · simp only [State.record,Function.update_of_ne hne] at hco'
      exact h.known wakeup' co' hco'
  · exact h.readers

/-- A coroutine has been resumed in `wait` that another one waits with. -/
theorem Invariant.not_recorded (h : Invariant s) {t : State τ} {wakeup : τ}
    (hco : s.status[co]? = some (.waiting wakeup))
    (hmore : ¬s.status.count (.waiting wakeup) ≤ 1) (hst : t.status = s.status.set co .running)
    (hw : t.wakeup_times.count wakeup = s.wakeup_times.count wakeup) : ¬t.Recorded := by
  intro hrec
  obtain ⟨hmem,hne⟩ := (h.listed wakeup).surplus hco hmore hw
  have heq := hrec wakeup (hst ▸ hmem)
  rw [hst] at heq
  exact hne heq

theorem not_recorded_wait (h : Invariant s) (hc : s.control = .resumed co back) {wakeup : τ}
    (hw : wakeup ∈ s.wakeup_times) (hnone : .waiting wakeup ∉ s.status) :
    ¬((s.record wakeup co).stop co back (.waiting wakeup)).Recorded := by
  intro hrec
  have hco := h.running co back hc
  have hlt : co < s.status.length := (List.getElem?_eq_some_iff.mp hco).1
  have hcount := count_set_add hco (.waiting wakeup) (.waiting wakeup)
  rw [if_neg (by simp),if_pos rfl,List.count_eq_zero.mpr hnone] at hcount
  have heq := hrec wakeup (by
    rw [stop_status]
    exact List.mem_set hlt _)
  have hpos := List.count_pos_iff.mpr hw
  rw [stop_wakeup_times,stop_status] at heq
  simp only [State.record,List.count_append,List.count_singleton_self] at heq
  omega

end Invariant

section Step
variable {τ : Type} [AddCommGroup τ] [LinearOrder τ] {s t : State τ} {a : Action τ}

theorem Step.invariant (hs : Step s a t) (h : Invariant s) (ha : Timely s a) : Invariant t := by
  cases hs with
  | createServant _ => exact ⟨h.listed,h.running,h.known,h.readers⟩
  | connect proxy_stub _ => exact ⟨h.listed,h.running,h.known,h.readers⟩
  | waitIncoming _ => exact h.move fun _ _ hc => by cases hc
  | @call co back proxy_stub hc =>
    have hconnect : Invariant (s.connect proxy_stub) :=
      ⟨h.listed,h.running,h.known,h.readers⟩
    have hlt := (List.getElem?_eq_some_iff.mp (h.running co back hc)).1
    exact (hconnect.register s.sockets hlt).stop hc fun _ heq => by cases heq
  | wait now timeToWait hc => exact h.wait hc ha
  | finish hc => exact h.stop hc fun _ heq => by cases heq
  | clock now _ =>
    refine ⟨fun wakeup => ?_,fun _ _ hc => (by cases hc),h.known,h.readers⟩
    exact (h.listed wakeup).congr (fun _ hco => hco) rfl
      ((List.perm_insertionSort (· ≤ ·) s.wakeup_times).count_eq wakeup)
  | ready recvt => exact h.move fun _ _ hc => by cases hc
  | @expired expired wakeup_times hw =>
    exact h.expired hw fun co wakeup => ha expired co wakeup (by rw [hw]; rfl)
  | unrecorded _ => exact h.move fun _ _ hc => by cases hc
  | event hc => exact h.event hc ha
  | timeout hc => exact h.timeout hc ha

end Step

section Timeout

/-- The first one of the sorted times is the earliest one. -/
theorem head_le {τ : Type} [LinearOrder τ] {l : List τ} {first wakeup : τ}
    (h : (l.insertionSort (· ≤ ·)).head? = some first) (hw : wakeup ∈ l) : first ≤ wakeup := by
  have hsorted := List.pairwise_insertionSort (· ≤ ·) l
  have hmem := (List.perm_insertionSort (· ≤ ·) l).mem_iff.mpr hw
  obtain ⟨rest,hrest⟩ := List.head?_eq_some_iff.mp h
  rw [hrest] at hsorted hmem
  obtain rfl | hmem := List.mem_cons.mp hmem
  · exact le_refl _
  · exact (List.pairwise_cons.mp hsorted).1 wakeup hmem

variable {τ : Type} [AddCommGroup τ] [LinearOrder τ] {s t : State τ} {a : Action τ}

theorem inTime_of_control (h : ∀ now nextTimeout, s.control ≠ .select now nextTimeout) : s.InTime :=
  fun now nextTimeout hc => absurd hc (h now nextTimeout)

theorem stop_inTime (s : State τ) (co : Co) (back : Back τ) (st : Status τ) :
    (s.stop co back st).InTime := by
  apply inTime_of_control
  intro now nextTimeout hc
  obtain ⟨recvt,hs⟩ | ⟨wakeup,hs⟩ := stop_control s co back st
  · cases hs.symm.trans hc
  · cases hs.symm.trans hc

theorem resumeNext_inTime (s : State τ) (wakeup : τ) : (s.resumeNext wakeup).InTime := by
  apply inTime_of_control
  intro now nextTimeout hc
  cases hlist : living s.status (s.coroutines_by_wakeup wakeup) with
  | nil =>
    rw [resumeNext_nil hlist] at hc
    cases hc
  | cons co rest =>
    rw [resumeNext_cons hlist,resume_control] at hc
    cases hc

theorem event_inTime (s : State τ) (recvt : List Socket) : (s.event recvt).InTime := by
  apply inTime_of_control
  intro now nextTimeout hc
  cases recvt with
  | nil => cases hc
  | cons sckt recvt =>
    rw [State.event] at hc
    split_ifs at hc
    · cases hc
    cases hr : s.reader sckt with
    | none =>
      rw [hr] at hc
      cases hc
    | some co =>
      rw [hr] at hc
      cases hc

variable [IsOrderedAddMonoid τ]

/-- `select` is called with the time up to the earliest wake time, which is not past. -/
theorem inTime_clock (s : State τ) (now : τ) (ha : ∀ wakeup ∈ s.wakeup_times, now ≤ wakeup) :
    State.InTime { s with
      wakeup_times := s.wakeup_times.insertionSort (· ≤ ·)
      control := .select now ((s.wakeup_times.insertionSort (· ≤ ·)).head?.map (· - now)) } := by
  have hperm := List.perm_insertionSort (· ≤ ·) s.wakeup_times
  intro now' nextTimeout hc
  cases hc
  constructor
  · intro hnone
    exact List.head?_eq_none_iff.mp (Option.map_eq_none_iff.mp hnone)
  · intro t ht
    obtain ⟨first,hfirst,rfl⟩ := Option.map_eq_some_iff.mp ht
    refine ⟨sub_nonneg.mpr (ha first (hperm.subset (List.mem_of_mem_head? hfirst))),?_⟩
    intro wakeup hw
    rw [add_sub_cancel]
    exact head_le hfirst (hperm.subset hw)

theorem Step.inTime (hs : Step s a t) (ha : Timely s a) : t.InTime := by
  cases hs with
  | createServant hc => exact inTime_of_control hc
  | connect proxy_stub hc =>
    exact inTime_of_control fun now nextTimeout heq => by cases hc.symm.trans heq
  | waitIncoming _ => exact inTime_of_control fun now nextTimeout heq => by cases heq
  | call proxy_stub _ => exact stop_inTime _ _ _ _
  | wait now timeToWait _ => exact stop_inTime _ _ _ _
  | finish _ => exact stop_inTime _ _ _ _
  | clock now _ => exact inTime_clock s now ha
  | ready recvt => exact inTime_of_control fun now nextTimeout heq => by cases heq
  | expired _ => exact resumeNext_inTime _ _
  | unrecorded _ => exact inTime_of_control fun now nextTimeout heq => by cases heq
  | event _ => exact event_inTime s _
  | timeout _ => exact resumeNext_inTime _ _

/-- A time is past when the clock is read: the timeout is negative. -/
theorem not_inTime_clock (s : State τ) (now : τ) (ha : ¬∀ wakeup ∈ s.wakeup_times, now ≤ wakeup) :
    ¬State.InTime { s with
      wakeup_times := s.wakeup_times.insertionSort (· ≤ ·)
      control := .select now ((s.wakeup_times.insertionSort (· ≤ ·)).head?.map (· - now)) } := by
  intro h
  push Not at ha
  obtain ⟨wakeup,hw,hlt⟩ := ha
  have hmem := (List.perm_insertionSort (· ≤ ·) s.wakeup_times).mem_iff.mpr hw
  cases hfirst : (s.wakeup_times.insertionSort (· ≤ ·)).head? with
  | none =>
    rw [List.head?_eq_none_iff.mp hfirst] at hmem
    cases hmem
  | some first =>
    have hnonneg := ((h now _ rfl).2 (first-now) (congrArg (Option.map (· - now)) hfirst)).1
    exact absurd ((sub_nonneg.mp hnonneg).trans (head_le hfirst hw)) (not_le.mpr hlt)

theorem Step.untimely (hs : Step s a t) (h : Invariant s) (ha : ¬Timely s a) : ¬t.Sound := by
  rintro ⟨hrec,htime⟩
  cases hs with
  | createServant _ => exact ha trivial
  | connect proxy_stub _ => exact ha trivial
  | waitIncoming _ => exact ha trivial
  | call proxy_stub _ => exact ha trivial
  | wait now timeToWait hc =>
    obtain ⟨hw,hnone⟩ := Classical.not_imp.mp ha
    exact not_recorded_wait h hc hw hnone hrec
  | finish _ => exact ha trivial
  | clock now _ => exact not_inTime_clock s now ha htime
  | ready recvt => exact ha trivial
  | @expired expired wakeup_times hw =>
    unfold Timely at ha
    push Not at ha
    obtain ⟨expired',co,wakeup,hhead,hliving,hco,hne,hmore⟩ := ha
    rw [hw] at hhead
    obtain rfl := Option.some.inj hhead
    obtain ⟨rest,hlist⟩ := List.head?_eq_some_iff.mp hliving
    rw [resumeNext_cons (s := { s with wakeup_times := wakeup_times }) hlist] at hrec
    refine h.not_recorded hco (not_le.mpr hmore) rfl ?_ hrec
    rw [resume_wakeup_times,hw]
    exact (List.count_cons_of_ne hne.symm).symm
  | unrecorded hw =>
    apply ha
    intro expired co wakeup hhead
    rw [hw] at hhead
    cases hhead
  | @event recvt hc =>
    unfold Timely at ha
    push Not at ha
    obtain ⟨co,wakeup,hdue,hco,hmore⟩ := ha
    cases recvt with
    | nil =>
      rw [State.due,hc] at hdue
      cases hdue
    | cons sckt recvt =>
      rw [State.due,hc] at hdue
      simp only at hdue
      split_ifs at hdue with hs
      rw [State.event,if_neg hs,hdue] at hrec
      exact h.not_recorded hco (not_le.mpr hmore) rfl (by rw [resume_wakeup_times]) hrec
  | @timeout expired hc =>
    unfold Timely at ha
    push Not at ha
    obtain ⟨co,wakeup,hdue,hco,hmore⟩ := ha
    rw [due_of_timeout hc] at hdue
    obtain ⟨rest,hlist⟩ := List.head?_eq_some_iff.mp hdue
    rw [resumeNext_cons hlist] at hrec
    exact h.not_recorded hco (not_le.mpr hmore) rfl (by rw [resume_wakeup_times]) hrec

/-- A run keeps one record for each coroutine that waits, and `select` wakes up in time, exactly when
every step is timely. -/
theorem sound_iff_timely (l : List (Action τ)) {u : State τ}
    (h : scheduler.exec initial l = some u) :
    (∀ k t, scheduler.exec initial (l.take k) = some t → t.Sound) ↔
      ∀ k a t, l[k]? = some a → scheduler.exec initial (l.take k) = some t → Timely t a := by
  apply TransitionSystem.exec_take_iff_of_exec (I := fun s => Invariant s ∧ s.InTime)
  · exact fun s hs => ⟨hs.1.recorded,hs.2⟩
  · intro s a t hs ha ht
    exact ⟨(step_cases ht).invariant hs.1 ha,(step_cases ht).inTime ha⟩
  · intro s a t hs ha ht
    exact (step_cases ht).untimely hs.1 ha
  · exact ⟨invariant_initial,inTime_of_control fun _ _ heq => by cases heq⟩
  · exact h

end Timeout

section Overslept

/-- With a negative timeout every coroutine goes on waiting until a socket is ready. -/
theorem ready_of_negative {τ : Type} [AddCommGroup τ] [LinearOrder τ] {s t : State τ} {a : Action τ}
    {now nextTimeout : τ} (hc : s.control = .select now (some nextTimeout)) (hneg : nextTimeout < 0)
    (h : step s a = some t) : ∃ recvt, a = .ready recvt ∧ t.status = s.status := by
  unfold step at h
  rw [hc] at h
  cases a with
  | ready recvt =>
    simp only at h
    split_ifs at h
    cases h
    exact ⟨recvt,rfl,rfl⟩
  | timedOut =>
    simp only at h
    rw [if_neg (not_le.mpr hneg)] at h
    cases h
  | _ => cases h

/-- A coroutine waits for a second from 0 on, and another one runs until 5. -/
def overslept : List (Action ℤ) :=
  [.createServant,.waitIncoming,.clock 0,.ready [0],.next,.wait 0 1,.next,.clock 0,.ready [0],.next,
    .finish,.next,.clock 5]

theorem sound_iff_timely_overslept : (∃ u, scheduler.exec initial overslept = some u) ∧
    ((∀ k t, scheduler.exec initial (overslept.take k) = some t → t.Sound) ↔
      ∀ k a t, overslept[k]? = some a → scheduler.exec initial (overslept.take k) = some t →
        Timely t a) :=
  ⟨⟨_,rfl⟩,sound_iff_timely overslept rfl⟩

/-- Then `select` blocks. -/
theorem not_sound_overslept :
    ¬∀ (l : List (Action ℤ)) s, scheduler.exec initial l = some s → s.Sound := by
  intro h
  have htime := (h overslept _ rfl).2 5 (some (-4)) rfl
  exact absurd (htime.2 (-4) rfl).1 (by decide)

end Overslept
end PucRio.RaftRpc.Scheduler
