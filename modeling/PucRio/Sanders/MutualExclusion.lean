import PucRio.Sanders.Network
import Mathlib.Algebra.BigOperators.Group.Finset.Basic
import Mathlib.Tactic.Linarith

/-! Mutual exclusion. Each node has one vote, which is at home, on its way to a candidate, with
the candidate, or on its way back. An INQ that reaches its addressee after the RELEASE was sent
is answered by a second return of the same vote, and the voter then votes twice. -/
namespace PucRio.Sanders
variable {n : ℕ}

def MutualExclusion (s : Network n) : Prop :=
  ∀ i j, (s.nodes i).inCS = true → (s.nodes j).inCS = true → i = j

instance (s : Network n) : Decidable (MutualExclusion s) :=
  inferInstanceAs (Decidable (∀ _ _, _ → _ → _))

/-- Any two districts share a node. -/
def Coterie (district : Fin n → Finset (Fin n)) : Prop :=
  ∀ i j, i ≠ j → (district i ∩ district j).Nonempty

instance (district : Fin n → Finset (Fin n)) : Decidable (Coterie district) :=
  inferInstanceAs (Decidable (∀ _ _, _ → _))

/-- Messages that give a vote back. -/
def Message.returns : Message → Bool
  | .release => true
  | .relinquish => true
  | _ => false

namespace Network

/-- The vote of `m` for `p`, as often as it is in flight. -/
def inFlight (s : Network n) (m p : Fin n) : ℕ :=
  (s.chan m p).countP (· = .yes) + (s.chan p m).countP Message.returns

def VotedFor (s : Network n) (m p : Fin n) : Prop :=
  (s.nodes m).hasVoted = true ∧ (s.nodes m).cand = some p

instance (s : Network n) (m p : Fin n) : Decidable (s.VotedFor m p) :=
  inferInstanceAs (Decidable (_ ∧ _))

/-- The vote of `m` has reached `p` and `p` has not sent it back. -/
def Holds (s : Network n) (p m : Fin n) : Prop := s.VotedFor m p ∧ s.inFlight m p = 0

instance (s : Network n) (p m : Fin n) : Decidable (s.Holds p m) :=
  inferInstanceAs (Decidable (_ ∧ _))

end Network

/-- An INQ is answered only by a node that holds the vote it asks back. -/
def NoStaleInquiry (s : Network n) : Action n → Prop
  | .deliver j i =>
    match (s.chan j i).head? with
    | some (.inqTs inqTS) =>
      (s.nodes i).inCS = false → (s.nodes i).myTS = inqTS → s.Holds i j
    | _ => True
  | _ => True

instance (s : Network n) (a : Action n) : Decidable (NoStaleInquiry s a) := by
  unfold NoStaleInquiry
  split
  · split <;> infer_instance
  · infer_instance

/-- Conservation of votes: no vote is in two places, a candidate counts the votes it holds, and a
node in the critical section holds those of its whole district. -/
structure VoteInv (district : Fin n → Finset (Fin n)) (s : Network n) : Prop where
  one_place : ∀ m p, s.inFlight m p ≤ if s.VotedFor m p then 1 else 0
  counted : ∀ p, (s.nodes p).yesVotes = ((district p).filter (s.Holds p)).card
  in_cs : ∀ p, (s.nodes p).inCS = true → ∀ m ∈ district p, s.Holds p m
  cand_mem : ∀ m p, (s.nodes m).cand = some p → m ∈ district p
  deferred_mem : ∀ m, ∀ r ∈ (s.nodes m).deferredQ, m ∈ district r.sender
  req_mem : ∀ m p ts, .reqTs ts ∈ s.chan p m → m ∈ district p

theorem voteInv_init (district : Fin n → Finset (Fin n)) : VoteInv district (.init n) where
  one_place := by simp [Network.init,Network.inFlight]
  counted p := by
    have hno : ∀ m, ¬ (Network.init n).Holds p m := fun m h => by simpa [Network.init] using h.1.1
    simp only [hno,Finset.filter_false,Finset.card_empty]
    rfl
  in_cs := by simp [Network.init]
  cand_mem := by simp [Network.init]
  deferred_mem := by simp [Network.init]
  req_mem := by simp [Network.init]

/-- Two nodes in the critical section would both hold the vote of a common member. -/
theorem VoteInv.mutualExclusion {district : Fin n → Finset (Fin n)} {s : Network n}
    (h : VoteInv district s) (hd : Coterie district) : MutualExclusion s := by
  intro i j hi hj
  by_contra hij
  obtain ⟨m,hm⟩ := hd i j hij
  obtain ⟨hmi,hmj⟩ := Finset.mem_inter.mp hm
  have hvi := (h.in_cs i hi m hmi).1.2
  have hvj := (h.in_cs j hj m hmj).1.2
  exact hij (Option.some.inj (hvi.symm.trans hvj))

namespace Network
variable (s : Network n) (i : Fin n) (r : Node n × Sent n)

@[simp] theorem commit_nodes : (s.commit i r).nodes = Function.update s.nodes i r.1 := rfl

@[simp] theorem take_nodes (j : Fin n) : (s.take j i).nodes = s.nodes := rfl

theorem commit_commit (a b : Node n) (sent : Sent n) :
    (s.commit i (a,[])).commit i (b,sent) = s.commit i (b,sent) := by
  unfold commit
  congr 1
  · simp
  · funext x y; simp [post]

theorem commit_commit_sent (a b : Node n) (sent : Sent n) :
    (s.commit i (a,sent)).commit i (b,[]) = s.commit i (b,sent) := by
  unfold commit
  congr 1
  · simp
  · funext x y; by_cases h : x = i <;> simp [post,h]

theorem mem_chan_commit {a b : Fin n} {m : Message} :
    m ∈ (s.commit i r).chan a b ↔ m ∈ s.chan a b ∨ a = i ∧ (b,m) ∈ r.2 := by
  by_cases h : a = i <;> simp [commit,post,h,mem_addressedTo]

/-- The votes in flight after a handler: those of before and those it sent. -/
theorem inFlight_commit (m p : Fin n) : (s.commit i r).inFlight m p = s.inFlight m p +
    (if m = i then (addressedTo r.2 p).countP (· = .yes) else 0) +
    (if p = i then (addressedTo r.2 m).countP Message.returns else 0) := by
  by_cases hm : m = i <;> by_cases hp : p = i <;>
    simp [inFlight,commit,post,hm,hp] <;> omega

/-- The votes in flight once the head of a channel is taken. -/
theorem inFlight_take {j : Fin n} {msg : Message} {rest : List Message}
    (h : s.chan j i = msg::rest) (m p : Fin n) : (s.take j i).inFlight m p +
    (if m = j ∧ p = i ∧ msg = .yes then 1 else 0) +
    (if p = j ∧ m = i ∧ msg.returns then 1 else 0) = s.inFlight m p := by
  have hc (a b : Fin n) (q : Message → Bool) : ((s.take j i).chan a b).countP q +
      (if a = j ∧ b = i ∧ q msg then 1 else 0) = (s.chan a b).countP q := by
    by_cases hab : a = j ∧ b = i
    · obtain ⟨rfl,rfl⟩ := hab
      simp [take,h,List.countP_cons]
    · have hn : ¬ (a = j ∧ b = i ∧ q msg) := fun hx => hab ⟨hx.1,hx.2.1⟩
      simp only [take,if_neg hab,if_neg hn,Nat.add_zero]
  have h₁ := hc m p (· = .yes)
  have h₂ := hc p m Message.returns
  simp only [decide_eq_true_eq] at h₁
  unfold inFlight
  omega

theorem mem_chan_of_take {j a b : Fin n} {m : Message} (h : m ∈ (s.take j i).chan a b) :
    m ∈ s.chan a b := by
  unfold take at h
  dsimp only at h
  split_ifs at h
  · exact List.mem_of_mem_tail h
  · exact h

end Network

section Steps
variable {district : Fin n → Finset (Fin n)} {s : Network n} {i j : Fin n}

theorem VoteInv.votedFor_of_inFlight (h : VoteInv district s) {m p : Fin n}
    (hpos : 0 < s.inFlight m p) : s.VotedFor m p ∧ s.inFlight m p = 1 := by
  have := h.one_place m p
  split_ifs at this with hv
  · exact ⟨hv,by omega⟩
  · omega

theorem VoteInv.inFlight_eq_zero (h : VoteInv district s) {m p : Fin n}
    (hv : ¬ s.VotedFor m p) : s.inFlight m p = 0 := by
  simpa [hv] using h.one_place m p

/-- As many votes as the district has members are the votes of all its members. -/
theorem VoteInv.holds_all (h : VoteInv district s) {p : Fin n}
    (hle : ((district p).card : ℤ) ≤ (s.nodes p).yesVotes) : ∀ m ∈ district p, s.Holds p m := by
  rw [h.counted p,Nat.cast_le] at hle
  intro m hm
  have he := Finset.eq_of_subset_of_card_le (Finset.filter_subset (s.Holds p) (district p)) hle
  rw [← he] at hm
  exact (Finset.mem_filter.mp hm).2

/-- A handler that keeps the vote and sends neither a vote nor a return. It may enter the
critical section with the votes of the whole district. -/
theorem VoteInv.quiet (h : VoteInv district s) {r : Node n × Sent n}
    (hasVoted : r.1.hasVoted = (s.nodes i).hasVoted) (cand : r.1.cand = (s.nodes i).cand)
    (yesVotes : r.1.yesVotes = (s.nodes i).yesVotes)
    (inCS : r.1.inCS = true → ∀ m ∈ district i, s.Holds i m)
    (deferred : ∀ q ∈ r.1.deferredQ, i ∈ district q.sender)
    (sent : ∀ m ∈ r.2, (∃ ts, m.2 = .inqTs ts) ∨ ((∃ ts, m.2 = .reqTs ts) ∧ m.1 ∈ district i)) :
    VoteInv district (s.commit i r) := by
  have hsent (d : Fin n) (q : Message → Bool) (hi : ∀ ts, q (.inqTs ts) = false)
      (hr : ∀ ts, q (.reqTs ts) = false) : (addressedTo r.2 d).countP q = 0 := by
    rw [List.countP_eq_zero]
    intro m hm
    rcases sent _ (mem_addressedTo.mp hm) with ⟨ts,he⟩ | ⟨⟨ts,he⟩,-⟩
    · obtain rfl : m = .inqTs ts := he
      simp [hi]
    · obtain rfl : m = .reqTs ts := he
      simp [hr]
  have hflight (m p : Fin n) : (s.commit i r).inFlight m p = s.inFlight m p := by
    rw [s.inFlight_commit,hsent p _ (by simp) (by simp),
      hsent m _ (fun _ => rfl) (fun _ => rfl)]
    simp
  have hvoted (m p : Fin n) : (s.commit i r).VotedFor m p ↔ s.VotedFor m p := by
    by_cases hm : m = i
    · subst hm; simp [Network.VotedFor,hasVoted,cand]
    · simp [Network.VotedFor,hm]
  have hholds (p m : Fin n) : (s.commit i r).Holds p m ↔ s.Holds p m := by
    simp only [Network.Holds,hvoted,hflight]
  constructor
  · intro m p
    simpa only [hflight,hvoted] using h.one_place m p
  · intro p
    simp only [hholds]
    by_cases hp : p = i
    · subst hp; simpa [yesVotes] using h.counted p
    · simpa [hp] using h.counted p
  · intro p hcs m hm
    rw [hholds]
    by_cases hp : p = i
    · subst hp; exact inCS (by simpa using hcs) m hm
    · exact h.in_cs p (by simpa [hp] using hcs) m hm
  · intro m p hc
    by_cases hm : m = i
    · subst hm; exact h.cand_mem m p (by simpa [cand] using hc)
    · exact h.cand_mem m p (by simpa [hm] using hc)
  · intro m q hq
    by_cases hm : m = i
    · subst hm; exact deferred q (by simpa using hq)
    · exact h.deferred_mem m q (by simpa [hm] using hq)
  · intro m p ts hm
    rcases (s.mem_chan_commit i r).mp hm with old | ⟨rfl,new⟩
    · exact h.req_mem m p ts old
    · rcases sent _ new with ⟨ts',he⟩ | ⟨-,hd⟩
      · simp at he
      · exact hd

/-- A node whose vote is at home gives it to `q`. -/
theorem VoteInv.vote (h : VoteInv district s) {t : Node n} {q : Fin n}
    (free : (s.nodes i).hasVoted = false) (cand : t.cand = some q)
    (yesVotes : t.yesVotes = (s.nodes i).yesVotes) (inCS : t.inCS = (s.nodes i).inCS)
    (deferred : ∀ q ∈ t.deferredQ, i ∈ district q.sender) (hq : i ∈ district q)
    (hasVoted : t.hasVoted = true) : VoteInv district (s.commit i (t,[(q,.yes)])) := by
  have hnone (p : Fin n) : ¬ s.VotedFor i p := fun hv => by simp [hv.1] at free
  have hvoted (m p : Fin n) : (s.commit i (t,[(q,.yes)])).VotedFor m p ↔
      if m = i then q = p else s.VotedFor m p := by
    by_cases hm : m = i
    · subst hm; simp [Network.VotedFor,cand,hasVoted]
    · simp [Network.VotedFor,hm]
  have hflight (m p : Fin n) : (s.commit i (t,[(q,.yes)])).inFlight m p =
      s.inFlight m p + if m = i ∧ q = p then 1 else 0 := by
    have hret : (addressedTo [(q,.yes)] m).countP Message.returns = 0 := by
      by_cases hqm : q = m <;> simp [addressedTo_cons,hqm,Message.returns]
    rw [s.inFlight_commit,hret]
    by_cases hm : m = i <;> by_cases hp : q = p <;> simp [addressedTo_cons,hm,hp]
  have hholds (p m : Fin n) : (s.commit i (t,[(q,.yes)])).Holds p m ↔ s.Holds p m := by
    simp only [Network.Holds,hvoted,hflight]
    by_cases hm : m = i
    · subst hm
      by_cases hp : q = p <;> simp [hp,hnone]
    · simp [hm]
  constructor
  · intro m p
    simp only [hflight,hvoted]
    by_cases hm : m = i
    · subst hm
      by_cases hp : q = p <;> simp [hp,h.inFlight_eq_zero (hnone _)]
    · simpa [hm] using h.one_place m p
  · intro p
    simp only [hholds]
    by_cases hp : p = i
    · subst hp; simpa [yesVotes] using h.counted p
    · simpa [hp] using h.counted p
  · intro p hcs m hm
    rw [hholds]
    by_cases hp : p = i
    · subst hp; exact h.in_cs p (by simpa [inCS] using hcs) m hm
    · exact h.in_cs p (by simpa [hp] using hcs) m hm
  · intro m p hc
    by_cases hm : m = i
    · subst hm
      obtain rfl : q = p := by simpa [cand] using hc
      exact hq
    · exact h.cand_mem m p (by simpa [hm] using hc)
  · intro m a ha
    by_cases hm : m = i
    · subst hm; exact deferred a (by simpa using ha)
    · exact h.deferred_mem m a (by simpa [hm] using ha)
  · intro m p ts hm
    rcases (s.mem_chan_commit i _).mp hm with old | ⟨rfl,new⟩
    · exact h.req_mem m p ts old
    · simp at new

/-- A message that is neither a vote nor a return is taken. -/
theorem VoteInv.take_neutral (h : VoteInv district s) {msg : Message} {rest : List Message}
    (hc : s.chan j i = msg::rest) (hy : msg ≠ .yes) (hr : msg.returns = false) :
    VoteInv district (s.take j i) := by
  have hflight (m p : Fin n) : (s.take j i).inFlight m p = s.inFlight m p := by
    have := s.inFlight_take i hc m p
    simpa [hy,hr] using this
  have hvoted (m p : Fin n) : (s.take j i).VotedFor m p ↔ s.VotedFor m p := Iff.rfl
  have hholds (p m : Fin n) : (s.take j i).Holds p m ↔ s.Holds p m := by
    simp only [Network.Holds,hvoted,hflight]
  constructor
  · simpa only [hflight,hvoted] using h.one_place
  · simpa only [hholds,Network.take_nodes] using h.counted
  · simpa only [hholds,Network.take_nodes] using h.in_cs
  · exact h.cand_mem
  · exact h.deferred_mem
  · exact fun m p ts hm => h.req_mem m p ts (s.mem_chan_of_take i hm)

/-- Handlers after which only the votes given to `i` have moved: the count of `i` must follow. -/
theorem VoteInv.recount (h : VoteInv district s) {s' : Network n}
    (nodes : ∀ p, p ≠ i → s'.nodes p = s.nodes p)
    (hasVoted : (s'.nodes i).hasVoted = (s.nodes i).hasVoted)
    (cand : (s'.nodes i).cand = (s.nodes i).cand)
    (deferred : (s'.nodes i).deferredQ = (s.nodes i).deferredQ)
    (flight : ∀ m p, p ≠ i → s'.inFlight m p = s.inFlight m p)
    (one_place : ∀ m, s'.inFlight m i ≤ if s.VotedFor m i then 1 else 0)
    (counted : (s'.nodes i).yesVotes = ((district i).filter (s'.Holds i)).card)
    (in_cs : (s'.nodes i).inCS = true → ∀ m ∈ district i, s'.Holds i m)
    (req : ∀ m p ts, .reqTs ts ∈ s'.chan p m → .reqTs ts ∈ s.chan p m) :
    VoteInv district s' := by
  have hvoted (m p : Fin n) : s'.VotedFor m p ↔ s.VotedFor m p := by
    by_cases hm : m = i
    · subst hm; simp only [Network.VotedFor,hasVoted,cand]
    · simp only [Network.VotedFor,nodes m hm]
  have hholds (p m : Fin n) (hp : p ≠ i) : s'.Holds p m ↔ s.Holds p m := by
    simp only [Network.Holds,hvoted,flight m p hp]
  constructor
  · intro m p
    by_cases hp : p = i
    · subst hp; simpa only [hvoted] using one_place m
    · simpa only [hvoted,flight m p hp] using h.one_place m p
  · intro p
    by_cases hp : p = i
    · subst hp; exact counted
    · simpa only [hholds p _ hp,nodes p hp] using h.counted p
  · intro p hcs
    by_cases hp : p = i
    · subst hp; exact in_cs hcs
    · simpa only [hholds p _ hp] using h.in_cs p (by simpa only [nodes p hp] using hcs)
  · intro m p hc
    by_cases hm : m = i
    · subst hm; exact h.cand_mem m p (cand ▸ hc)
    · exact h.cand_mem m p (nodes m hm ▸ hc)
  · intro m a ha
    by_cases hm : m = i
    · subst hm; exact h.deferred_mem m a (deferred ▸ ha)
    · exact h.deferred_mem m a (nodes m hm ▸ ha)
  · exact fun m p ts hm => h.req_mem m p ts (req m p ts hm)

theorem VoteInv.receiveYes (h : VoteInv district s) {rest : List Message}
    (hc : s.chan j i = .yes::rest) :
    VoteInv district ((s.take j i).commit i (handleYesMessage (s.nodes i))) := by
  have hpos : 0 < s.inFlight j i := by simp [Network.inFlight,hc]
  obtain ⟨hv,hone⟩ := h.votedFor_of_inFlight hpos
  have hflight (m p : Fin n) :
      ((s.take j i).commit i (handleYesMessage (s.nodes i))).inFlight m p +
      (if m = j ∧ p = i then 1 else 0) = s.inFlight m p := by
    have := s.inFlight_take i hc m p
    rw [Network.inFlight_commit]
    simpa [handleYesMessage,Message.returns] using this
  have hvoted (m p : Fin n) :
      ((s.take j i).commit i (handleYesMessage (s.nodes i))).VotedFor m p ↔ s.VotedFor m p := by
    by_cases hm : m = i
    · subst hm; simp [Network.VotedFor,handleYesMessage]
    · simp [Network.VotedFor,hm]
  have hholds (m : Fin n) :
      ((s.take j i).commit i (handleYesMessage (s.nodes i))).Holds i m ↔ m = j ∨ s.Holds i m := by
    have := hflight m i
    simp only [Network.Holds,hvoted]
    by_cases hm : m = j
    · subst hm
      simp only [and_self,if_true] at this
      simp only [true_or,iff_true]
      exact ⟨hv,by omega⟩
    · simp only [hm,false_and,if_false,Nat.add_zero] at this
      simp only [this,hm,false_or]
  have hj : ¬ s.Holds i j := fun hx => by have := hx.2; omega
  refine h.recount (i := i) (fun p hp => by simp [hp]) (by simp [handleYesMessage])
    (by simp [handleYesMessage]) (by simp [handleYesMessage]) (fun m p hp => ?_) (fun m => ?_)
    ?_ ?_ (fun m p ts hm => ?_)
  · simpa [hp] using hflight m p
  · have := hflight m i
    have := h.one_place m i
    omega
  · have hins : (district i).filter
        (((s.take j i).commit i (handleYesMessage (s.nodes i))).Holds i) =
        insert j ((district i).filter (s.Holds i)) := by
      ext m
      simp only [Finset.mem_filter,Finset.mem_insert,hholds]
      constructor
      · rintro ⟨hm,rfl | hx⟩
        · exact .inl rfl
        · exact .inr ⟨hm,hx⟩
      · rintro (rfl | ⟨hm,hx⟩)
        · exact ⟨h.cand_mem _ _ hv.2,.inl rfl⟩
        · exact ⟨hm,.inr hx⟩
    rw [hins,Finset.card_insert_of_notMem (fun hx => hj (Finset.mem_filter.mp hx).2)]
    simp [handleYesMessage,h.counted i]
  · intro hcs m hm
    refine (hholds m).mpr (.inr (h.in_cs i ?_ m hm))
    simpa [handleYesMessage] using hcs
  · rcases (Network.mem_chan_commit _ i _).mp hm with old | ⟨rfl,new⟩
    · exact s.mem_chan_of_take i old
    · simp [handleYesMessage] at new

/-- The answer to an INQ of `j`: the vote of `j`, which `i` holds, goes back. -/
theorem VoteInv.relinquish (h : VoteInv district s) (hheld : s.Holds i j)
    (hcs : (s.nodes i).inCS = false) : VoteInv district
    (s.commit i ({ s.nodes i with yesVotes := (s.nodes i).yesVotes-1 },[(j,.relinquish)])) := by
  set r : Node n × Sent n :=
    ({ s.nodes i with yesVotes := (s.nodes i).yesVotes-1 },[(j,.relinquish)]) with hr
  have hflight (m p : Fin n) : (s.commit i r).inFlight m p =
      s.inFlight m p + if m = j ∧ p = i then 1 else 0 := by
    have hyes : (addressedTo r.2 p).countP (· = .yes) = 0 := by
      by_cases hjp : j = p <;> simp [hr,addressedTo_cons,hjp]
    rw [s.inFlight_commit,hyes]
    by_cases hm : m = j
    · by_cases hp : p = i <;> simp [hr,addressedTo_cons,hm,hp,Message.returns]
    · by_cases hp : p = i <;> simp [hr,addressedTo_cons,hm,hp,Ne.symm hm]
  have hvoted (m p : Fin n) : (s.commit i r).VotedFor m p ↔ s.VotedFor m p := by
    by_cases hm : m = i
    · subst hm; simp [Network.VotedFor,hr]
    · simp [Network.VotedFor,hm]
  have hholds (m : Fin n) : (s.commit i r).Holds i m ↔ m ≠ j ∧ s.Holds i m := by
    simp only [Network.Holds,hvoted,hflight]
    by_cases hm : m = j <;> simp [hm]
  have hj := h.cand_mem j i hheld.1.2
  refine h.recount (i := i) (fun p hp => by simp [hp]) (by simp [hr]) (by simp [hr])
    (by simp [hr]) (fun m p hp => by simp [hflight,hp]) (fun m => ?_) ?_ ?_ (fun m p ts hm => ?_)
  · rw [hflight]
    by_cases hm : m = j
    · subst hm; simp [hheld.1,hheld.2]
    · simpa [hm] using h.one_place m i
  · have herase : (district i).filter ((s.commit i r).Holds i) =
        ((district i).filter (s.Holds i)).erase j := by
      ext m
      simp only [Finset.mem_filter,Finset.mem_erase,hholds]
      tauto
    have hmem : j ∈ (district i).filter (s.Holds i) := Finset.mem_filter.mpr ⟨hj,hheld⟩
    have hpos := Finset.card_pos.mpr ⟨j,hmem⟩
    rw [herase,Finset.card_erase_of_mem hmem,Nat.cast_sub hpos]
    simp [hr,h.counted i]
  · simp [hr,hcs]
  · rcases (s.mem_chan_commit i r).mp hm with old | ⟨rfl,new⟩
    · exact old
    · simp [hr] at new

/-- Leaving the critical section sends every vote of the district back. -/
theorem VoteInv.exitCS (h : VoteInv district s) (hcs : (s.nodes i).inCS = true) :
    VoteInv district (s.commit i (exitCS (district i) (s.nodes i))) := by
  set r := Sanders.exitCS (district i) (s.nodes i) with hr
  have hheld := h.in_cs i hcs
  have hsent (d : Fin n) : addressedTo r.2 d = if d ∈ district i then [.release] else [] := by
    simp only [hr,Sanders.exitCS]
    rw [addressedTo_map_const (nodup_members _)]
    simp only [mem_members]
  have hflight (m p : Fin n) : (s.commit i r).inFlight m p =
      s.inFlight m p + if m ∈ district i ∧ p = i then 1 else 0 := by
    rw [s.inFlight_commit,hsent,hsent]
    by_cases hm : m ∈ district i <;> by_cases hp : p ∈ district i <;> by_cases hpi : p = i <;>
      simp [hm,hp,hpi,Message.returns]
  have hvoted (m p : Fin n) : (s.commit i r).VotedFor m p ↔ s.VotedFor m p := by
    by_cases hm : m = i
    · subst hm; simp [Network.VotedFor,hr,Sanders.exitCS]
    · simp [Network.VotedFor,hm]
  refine h.recount (i := i) (fun p hp => by simp [hp]) (by simp [hr,Sanders.exitCS])
    (by simp [hr,Sanders.exitCS]) (by simp [hr,Sanders.exitCS])
    (fun m p hp => by simp [hflight,hp]) (fun m => ?_) ?_ ?_ (fun m p ts hm => ?_)
  · rw [hflight]
    by_cases hm : m ∈ district i
    · simp [hm,(hheld m hm).1,(hheld m hm).2]
    · simpa [hm] using h.one_place m i
  · have hnone : (district i).filter ((s.commit i r).Holds i) = ∅ := by
      refine Finset.filter_eq_empty_iff.mpr fun m hm hx => ?_
      have := hx.2
      simp [hflight,hm] at this
    rw [hnone]
    simp [hr,Sanders.exitCS]
  · simp [hr,Sanders.exitCS]
  · rcases (s.mem_chan_commit i r).mp hm with old | ⟨rfl,new⟩
    · exact old
    · simp [hr,Sanders.exitCS] at new

/-- A return has arrived: for a moment the vote of `i` is free. -/
theorem VoteInv.returned (h : VoteInv district s) {msg : Message} {rest : List Message}
    (hc : s.chan j i = msg::rest) (hr : msg.returns = true) : s.VotedFor i j ∧
    VoteInv district ((s.take j i).commit i ({ s.nodes i with hasVoted := false },[])) := by
  have hpos : 0 < s.inFlight i j := by simp [Network.inFlight,hc,hr]
  obtain ⟨hv,hone⟩ := h.votedFor_of_inFlight hpos
  refine ⟨hv,?_⟩
  set u := (s.take j i).commit i ({ s.nodes i with hasVoted := false },[]) with hu
  have hy : msg ≠ .yes := by rintro rfl; simp [Message.returns] at hr
  have hflight (m p : Fin n) :
      u.inFlight m p + (if p = j ∧ m = i then 1 else 0) = s.inFlight m p := by
    have := s.inFlight_take i hc m p
    rw [hu,Network.inFlight_commit]
    simpa [hy,hr] using this
  have hvoted (m p : Fin n) : u.VotedFor m p ↔ m ≠ i ∧ s.VotedFor m p := by
    by_cases hm : m = i
    · subst hm; simp [Network.VotedFor,hu]
    · simp [Network.VotedFor,hu,hm]
  have hother (p : Fin n) (hp : p ≠ j) : ¬ s.VotedFor i p :=
    fun hx => hp (Option.some.inj (hx.2.symm.trans hv.2))
  have hholds (p m : Fin n) : u.Holds p m ↔ s.Holds p m := by
    have := hflight m p
    simp only [Network.Holds,hvoted]
    by_cases hm : m = i
    · subst hm
      by_cases hp : p = j
      · subst hp; simp [hone]
      · simp [hother p hp]
    · simp only [hm,and_false,if_false,Nat.add_zero] at this
      simp [hm,this]
  constructor
  · intro m p
    have := hflight m p
    have hle := h.one_place m p
    simp only [hvoted]
    by_cases hm : m = i
    · subst hm
      by_cases hp : p = j
      · subst hp; simp_all
      · simp_all
    · simp_all
  · intro p
    simp only [hholds]
    by_cases hp : p = i
    · subst hp; simpa [hu] using h.counted p
    · simpa [hu,hp] using h.counted p
  · intro p hcs m hm
    rw [hholds]
    by_cases hp : p = i
    · subst hp; exact h.in_cs p (by simpa [hu] using hcs) m hm
    · exact h.in_cs p (by simpa [hu,hp] using hcs) m hm
  · intro m p hx
    by_cases hm : m = i
    · subst hm; exact h.cand_mem m p (by simpa [hu] using hx)
    · exact h.cand_mem m p (by simpa [hu,hm] using hx)
  · intro m a ha
    by_cases hm : m = i
    · subst hm; exact h.deferred_mem m a (by simpa [hu] using ha)
    · exact h.deferred_mem m a (by simpa [hu,hm] using ha)
  · intro m p ts hm
    rcases (Network.mem_chan_commit _ i _).mp hm with old | ⟨-,new⟩
    · exact h.req_mem m p ts (s.mem_chan_of_take i old)
    · simp at new

/-- The free vote goes to the next request, if there is one. -/
theorem VoteInv.passVote (h : VoteInv district s) {msg : Message} {rest : List Message}
    (hc : s.chan j i = msg::rest) (hr : msg.returns = true) {q : List (ProcessingRequest n)}
    (hq : ∀ r ∈ q, i ∈ district r.sender) : VoteInv district
    ((s.take j i).commit i (passVote { s.nodes i with deferredQ := q })) := by
  obtain ⟨hv,hu⟩ := h.returned hc hr
  cases q with
  | nil =>
    rw [← Network.commit_commit _ _ { s.nodes i with hasVoted := false }]
    exact hu.quiet (by simp [Sanders.passVote]) (by simp [Sanders.passVote])
      (by simp [Sanders.passVote])
      (fun hcs => hu.in_cs i (by simpa [Sanders.passVote] using hcs))
      (by simp [Sanders.passVote]) (by simp [Sanders.passVote])
  | cons r q =>
    simp only [Sanders.passVote]
    rw [← Network.commit_commit _ _ { s.nodes i with hasVoted := false }]
    exact hu.vote (by simp) rfl (by simp) (by simp)
      (fun a ha => hq a (List.mem_cons_of_mem r ha)) (hq r List.mem_cons_self) hv.1

theorem VoteInv.receiveReqTs (h : VoteInv district s) {ts : ℕ} {rest : List Message}
    (hc : s.chan j i = .reqTs ts::rest) :
    VoteInv district ((s.take j i).commit i (handleReqTsMessage (s.nodes i) ts j)) := by
  have ht := h.take_neutral hc (by simp) rfl
  have hi := h.req_mem i j ts (by simp [hc])
  have hadd : ∀ r ∈ add ⟨j,ts⟩ (s.nodes i).deferredQ, i ∈ district r.sender := by
    intro r hr
    rcases mem_add.mp hr with rfl | hr
    · exact hi
    · exact h.deferred_mem i r hr
  unfold handleReqTsMessage
  by_cases hv : (s.nodes i).hasVoted = true
  · simp only [hv,Bool.not_true,Bool.false_eq_true,if_false]
    split
    · split_ifs
      · exact ht.quiet (by simp [hv]) (by simp) (by simp) (ht.in_cs i) hadd (by simp)
      · exact ht.quiet (by simp [hv]) (by simp) (by simp) (ht.in_cs i) hadd (by simp)
    · exact ht.quiet (by simp [hv]) (by simp) (by simp) (ht.in_cs i) hadd (by simp)
  · rw [Bool.not_eq_true] at hv
    simp only [hv,Bool.not_false,if_true]
    exact ht.vote (by simpa using hv) rfl (by simp) (by simp) (h.deferred_mem i) hi rfl

theorem VoteInv.enterCSLoop (h : VoteInv district s) {k : ℕ} : VoteInv district
    (s.commit i (enterCSLoop (district i) { s.nodes i with enterTimers := k },[])) := by
  unfold Sanders.enterCSLoop
  split_ifs with hy
  · exact h.quiet rfl rfl rfl (h.in_cs i) (h.deferred_mem i) (by simp)
  · exact h.quiet rfl rfl rfl (fun _ => h.holds_all (by simpa using hy)) (h.deferred_mem i)
      (by simp)

theorem VoteInv.requestCS (h : VoteInv district s) :
    VoteInv district (s.commit i (requestCS (district i) (s.nodes i))) := by
  unfold Sanders.requestCS enterCS
  split_ifs with hreq
  · exact h.quiet rfl rfl rfl (h.in_cs i) (h.deferred_mem i) (by simp)
  · have hsend : VoteInv district (s.commit i
        ({ s.nodes i with requestedCS := true, myTS := (s.nodes i).curTS },
          (members (district i)).map (·,.reqTs (s.nodes i).curTS))) :=
      h.quiet rfl rfl rfl (h.in_cs i) (h.deferred_mem i) (by simp)
    rw [← Network.commit_commit_sent _ _
      { s.nodes i with requestedCS := true, myTS := (s.nodes i).curTS }]
    have := hsend.enterCSLoop (i := i) (k := (s.nodes i).enterTimers)
    simpa using this

/-- Every step that meets the guard keeps the votes. -/
theorem VoteInv.step (h : VoteInv district s) {a : Action n} {t : Network n}
    (hg : NoStaleInquiry s a) (hs : s.step district a = some t) : VoteInv district t := by
  cases a with
  | requestCS i =>
    obtain rfl := Option.some.inj hs
    exact h.requestCS
  | leaveCS i =>
    obtain rfl := Option.some.inj hs
    unfold leaveCS
    split_ifs with hcs
    · exact h.exitCS hcs
    · exact h.quiet rfl rfl rfl (h.in_cs i) (h.deferred_mem i) (by simp)
  | enterTimer i =>
    simp only [Network.step] at hs
    split_ifs at hs
    obtain rfl := Option.some.inj hs
    exact h.enterCSLoop
  | postStep i =>
    obtain rfl := Option.some.inj hs
    exact h.quiet rfl rfl rfl (h.in_cs i) (h.deferred_mem i) (by simp)
  | deliver j i =>
    simp only [Network.step] at hs
    cases hc : s.chan j i with
    | nil => simp [hc] at hs
    | cons m rest =>
      simp only [hc] at hs
      obtain ⟨r,hr,rfl⟩ := Option.map_eq_some_iff.mp hs
      cases m with
      | reqTs ts =>
        obtain rfl := Option.some.inj hr
        exact h.receiveReqTs hc
      | yes =>
        obtain rfl := Option.some.inj hr
        exact h.receiveYes hc
      | inqTs inqTS =>
        obtain rfl := Option.some.inj hr
        have ht := h.take_neutral hc (by simp) rfl
        unfold handleInqTsMessage
        split_ifs with hq
        · have hcs : (s.nodes i).inCS = false := by simpa using hq.1
          have hheld : s.Holds i j := by
            simp only [NoStaleInquiry,hc,List.head?_cons] at hg
            exact hg hcs hq.2
          have hflight := s.inFlight_take i hc j i
          simp only [reduceCtorEq,and_false,Message.returns,Bool.false_eq_true,if_false,
            Nat.add_zero] at hflight
          exact ht.relinquish ⟨hheld.1,hflight.trans hheld.2⟩ hcs
        · exact ht.quiet rfl rfl rfl (ht.in_cs i) (ht.deferred_mem i) (by simp)
      | release =>
        obtain rfl := Option.some.inj hr
        exact h.passVote hc rfl (h.deferred_mem i)
      | relinquish =>
        obtain ⟨hv,-⟩ := h.returned hc rfl
        obtain ⟨c,hcand,rfl⟩ := Option.map_eq_some_iff.mp hr
        obtain rfl : c = j := Option.some.inj (hcand.symm.trans hv.2)
        refine h.passVote hc rfl fun r hr => ?_
        rcases mem_add.mp hr with rfl | hr
        · exact h.cand_mem i c hv.2
        · exact h.deferred_mem i r hr

end Steps

theorem voteInv_of_reachableUnder {district : Fin n → Finset (Fin n)} {s : Network n}
    (h : (sanders district).ReachableUnder NoStaleInquiry s) : VoteInv district s :=
  h.invariant (voteInv_init district) fun _ _ _ hs hg ht => hs.step hg ht

/-- Sanders mutual exclusion, as long as no INQ is answered without the vote it asks back. -/
theorem mutualExclusion_of_noStaleInquiry (n : ℕ) (district : Fin n → Finset (Fin n))
    (hd : Coterie district) (s : Network n)
    (h : (sanders district).ReachableUnder NoStaleInquiry s) : MutualExclusion s :=
  (voteInv_of_reachableUnder h).mutualExclusion hd

/-- Four nodes whose one district is `{0}`. -/
def single : Fin 4 → Finset (Fin 4) := fun _ => {0}

/-- Node 3 leaves while the INQ is on its way; node 2 has the vote when node 3 answers it. -/
def crossing : List (Action 4) :=
  [.requestCS 3,.deliver 3 0,.deliver 0 3,.enterTimer 3,.requestCS 2,.deliver 2 0,.leaveCS 3,
    .deliver 3 0,.deliver 0 3,.requestCS 1,.deliver 1 0,.deliver 3 0,.deliver 0 1,.enterTimer 1,
    .deliver 0 2,.enterTimer 2]

theorem mutualExclusion_of_noStaleInquiry_single : ∃ s : Network 4,
    (sanders single).ReachableUnder NoStaleInquiry s ∧ (s.nodes 2).hasVoted = false ∧
    (s.nodes 3).inCS = true ∧ MutualExclusion s := by
  obtain ⟨s,hs,hl⟩ := TransitionSystem.exists_reachableUnder_of_execUnder
    (T := sanders single) (G := NoStaleInquiry) (l := crossing.take 6)
    (p := fun s => !(s.nodes 2).hasVoted && (s.nodes 3).inCS) (by decide)
  simp only [Bool.and_eq_true,Bool.not_eq_true'] at hl
  exact ⟨s,hs,hl.1,hl.2,mutualExclusion_of_noStaleInquiry 4 single (by decide) s hs⟩

/-- Without the guard two nodes enter. -/
theorem not_mutualExclusion_single : Coterie single ∧
    ∃ s : Network 4, (sanders single).Reachable s ∧ ¬ MutualExclusion s := by
  refine ⟨by decide,?_⟩
  obtain ⟨s,hs,hl⟩ := TransitionSystem.exists_reachable_of_exec
    (T := sanders single) (l := crossing)
    (p := fun s => (s.nodes 1).inCS && (s.nodes 2).inCS) (by decide)
  simp only [Bool.and_eq_true] at hl
  exact ⟨s,hs,fun h => absurd (h 1 2 hl.1 hl.2) (by decide)⟩

end PucRio.Sanders
