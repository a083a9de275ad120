import DirectoryListing.Frontier
import Mathlib.Data.List.Induction

/-!
# The discipline of a frontier

Batches are put into a frontier, and items are taken out, in any order of calls. Nothing is lost and
nothing repeated on the way: what has come out and what is pending make up the batches. By levels the
items come out in the order in which they were put in. Into depth they come out of the newest batch
that has any left, and of that one in its own order.

A member of a batch is more than its item, which may be scheduled again and again. So the calls are
made once more with members as items, each with the number of its batch and its position in it. What
they lead to is the same, with all that was put in told apart.

## Main definitions

* `Frontier.Call`, `Frontier.Use`: the calls to a frontier, and what they have led to
* `Frontier.after order calls`: what some calls lead to, from nothing pending on
* `Frontier.Member`, `Frontier.membersAfter order calls`: the same with members of batches as items
* `Frontier.IsDue w m`: the first member left of the newest batch that has any left

## Main results

* `Frontier.Balanced.call`: a call keeps the balance of what was put in and what has come out
* `Frontier.Stacked.call`: into depth, a call keeps the pending members in order
* `Frontier.discipline`: what holds after any calls
-/

namespace DirectoryListing.Frontier

variable {α β : Type}

/-! ## Calls -/

/-- A call to a frontier. -/
inductive Call (α : Type) where
  /-- A batch is put in. -/
  | schedule (batch : List α)
  /-- The next item is taken out, if there is one. -/
  | next

/-- What calls to a frontier have led to: the frontier, the batches that were put into it, and the
items that have come out of it. -/
structure Use (α : Type) where
  frontier : Frontier α
  batches : List (List α)
  returned : List α

namespace Use

/-- A frontier with nothing pending, before any call. -/
def start (order : Strategy) : Use α := ⟨.empty order, [], []⟩

/-- One more call. Nothing comes out of a frontier in which nothing is pending. -/
def call (u : Use α) : Call α → Use α
  | .schedule batch =>
    { u with frontier := u.frontier.schedule batch, batches := u.batches ++ [batch] }
  | .next =>
    match u.frontier.next? with
    | none => u
    | some (a, rest) => { u with frontier := rest, returned := u.returned ++ [a] }

end Use

/-- What some calls lead to, from nothing pending on. -/
def after (order : Strategy) (calls : List (Call α)) : Use α :=
  calls.foldl Use.call (.start order)

variable {order : Strategy} {calls : List (Call α)} {u : Use α} {c : Call α} {a : α}
  {rest : List α}

theorem after_snoc (order : Strategy) (calls : List (Call α)) (c : Call α) :
    after order (calls ++ [c]) = (after order calls).call c := by
  rw [after, List.foldl_append]
  rfl

theorem call_next_of_nil (h : u.frontier.pending = []) : u.call .next = u := by
  rw [Use.call, next?, h]

theorem call_next_of_cons (h : u.frontier.pending = a :: rest) :
    u.call .next = ⟨{ u.frontier with pending := rest }, u.batches, u.returned ++ [a]⟩ := by
  rw [Use.call, next?, h]

theorem strategy_call (u : Use α) (c : Call α) :
    (u.call c).frontier.strategy = u.frontier.strategy := by
  cases c with
  | schedule batch => exact strategy_schedule _ batch
  | next =>
    cases h : u.frontier.pending with
    | nil => rw [call_next_of_nil h]
    | cons a rest => rw [call_next_of_cons h]

theorem batches_call_next (u : Use α) : (u.call .next).batches = u.batches := by
  cases h : u.frontier.pending with
  | nil => rw [call_next_of_nil h]
  | cons a rest => rw [call_next_of_cons h]

/-! ## What is conserved -/

/-- What has come out and what is pending make up what was put in. -/
def Balanced (u : Use α) : Prop :=
  (u.returned ++ u.frontier.pending).Perm u.batches.flatten

/-- **A call keeps the balance**: a batch is pending once it is put in, and what comes out was
pending. -/
theorem Balanced.call (h : Balanced u) (c : Call α) : Balanced (u.call c) := by
  cases c with
  | schedule batch =>
    calc (u.returned ++ (u.frontier.schedule batch).pending).Perm
          (u.returned ++ (u.frontier.pending ++ batch)) :=
          (perm_pending_schedule u.frontier batch).append_left _
      _ = u.returned ++ u.frontier.pending ++ batch := (List.append_assoc _ _ _).symm
      _ |>.Perm (u.batches.flatten ++ batch) := h.append_right batch
      _ = (u.batches ++ [batch]).flatten := by simp
  | next =>
    cases hp : u.frontier.pending with
    | nil => rwa [call_next_of_nil hp]
    | cons a rest =>
      rw [call_next_of_cons hp]
      rw [Balanced, hp] at h
      simpa [Balanced] using h

theorem balanced_after (order : Strategy) (calls : List (Call α)) :
    Balanced (after order calls) := by
  induction calls using List.reverseRecOn with
  | nil => exact List.Perm.refl []
  | append_singleton calls c ih =>
    rw [after_snoc]
    exact ih.call c

theorem next?_eq_none_iff {f : Frontier α} : f.next? = none ↔ f.size = 0 := by
  rw [size, List.length_eq_zero_iff, next?]
  split <;> simp_all

/-! ## By levels -/

/-- By levels, what has come out and what is pending are the batches in their order. -/
structure Queued (u : Use α) : Prop where
  strategy : u.frontier.strategy = .breadthFirst
  order : u.returned ++ u.frontier.pending = u.batches.flatten

/-- **A call keeps the queue**: a batch goes behind all that is pending. -/
theorem Queued.call (h : Queued u) (c : Call α) : Queued (u.call c) := by
  refine ⟨(strategy_call u c).trans h.strategy, ?_⟩
  cases c with
  | schedule batch =>
    simp only [Use.call, schedule, h.strategy, List.flatten_append, List.flatten_singleton,
      ← h.order, List.append_assoc]
  | next =>
    cases hp : u.frontier.pending with
    | nil =>
      rw [call_next_of_nil hp]
      exact h.order
    | cons a rest =>
      rw [call_next_of_cons hp, ← h.order, hp]
      simp

theorem queued_after (calls : List (Call α)) : Queued (after .breadthFirst calls) := by
  induction calls using List.reverseRecOn with
  | nil => exact ⟨rfl, rfl⟩
  | append_singleton calls c ih =>
    rw [after_snoc]
    exact ih.call c

/-! ## Members of batches -/

/-- A member of a batch: the number of the batch, its position there, and its item. -/
structure Member (α : Type) where
  batch : Nat
  position : Nat
  item : α

/-- The members of a batch with a number. -/
def members (number : Nat) (batch : List α) : List (Member α) :=
  batch.mapIdx (Member.mk number)

/-- A call with the members of its batch, which has a number, as the items. -/
def Call.numbered (number : Nat) : Call α → Call (Member α)
  | .schedule batch => .schedule (members number batch)
  | .next => .next

/-- What some calls lead to with the members of batches as items, the batches being numbered in the
order in which they are put in. -/
def membersAfter (order : Strategy) (calls : List (Call α)) : Use (Member α) :=
  calls.foldl (fun u c => u.call (c.numbered u.batches.length)) (.start order)

/-- What calls have led to, with other items in place of the items. -/
def Use.map (f : α → β) (u : Use α) : Use β :=
  ⟨⟨u.frontier.strategy, u.frontier.pending.map f⟩, u.batches.map (·.map f), u.returned.map f⟩

theorem membersAfter_snoc (order : Strategy) (calls : List (Call α)) (c : Call α) :
    membersAfter order (calls ++ [c]) =
      (membersAfter order calls).call (c.numbered (membersAfter order calls).batches.length) := by
  rw [membersAfter, List.foldl_append]
  rfl

theorem map_item_members (number : Nat) (batch : List α) :
    (members number batch).map Member.item = batch := by
  apply List.ext_getElem <;> simp [members]

/-- A call does the same with members as with their items. -/
theorem map_item_call (u : Use (Member α)) (number : Nat) (c : Call α) :
    (u.call (c.numbered number)).map Member.item = (u.map Member.item).call c := by
  cases c with
  | schedule batch =>
    cases hs : u.frontier.strategy <;>
      simp [Call.numbered, Use.call, Use.map, schedule, hs, map_item_members]
  | next =>
    cases hp : u.frontier.pending with
    | nil => rw [Call.numbered, call_next_of_nil hp, call_next_of_nil (by simp [Use.map, hp])]
    | cons m rest =>
      have mapped : (u.map Member.item).frontier.pending = m.item :: rest.map Member.item := by
        simp [Use.map, hp]
      rw [Call.numbered, call_next_of_cons hp, call_next_of_cons mapped]
      simp [Use.map]

theorem map_item_membersAfter (order : Strategy) (calls : List (Call α)) :
    (membersAfter order calls).map Member.item = after order calls := by
  induction calls using List.reverseRecOn with
  | nil => rfl
  | append_singleton calls c ih => rw [membersAfter_snoc, map_item_call, ih, after_snoc]

/-! ## Into depth -/

/-- The member is of a newer batch than another one, or it stands before it in the same batch. -/
def Member.Precedes (m m' : Member α) : Prop :=
  m'.batch < m.batch ∨ m.batch = m'.batch ∧ m.position < m'.position

/-- Into depth, the pending members of newer batches stand before those of older ones, in the order
of their batches; all that has been put in is told apart by the numbers of the batches. -/
structure Stacked (u : Use (Member α)) : Prop where
  strategy : u.frontier.strategy = .depthFirst
  pending : u.frontier.pending.Pairwise Member.Precedes
  scheduled : u.batches.flatten.Nodup
  numbers : ∀ m ∈ u.batches.flatten, m.batch < u.batches.length
  balanced : Balanced u

theorem mem_members {number : Nat} {batch : List α} {m : Member α} :
    m ∈ members number batch ↔ m.batch = number ∧ batch[m.position]? = some m.item := by
  obtain ⟨n, i, a⟩ := m
  simp only [members, List.mem_mapIdx, Member.mk.injEq, List.getElem?_eq_some_iff]
  constructor
  · rintro ⟨j, hj, rfl, rfl, rfl⟩
    exact ⟨rfl, hj, rfl⟩
  · rintro ⟨rfl, hi, rfl⟩
    exact ⟨i, hi, rfl, rfl, rfl⟩

theorem pairwise_members (number : Nat) (batch : List α) :
    (members number batch).Pairwise fun m m' => m.position < m'.position := by
  rw [List.pairwise_iff_getElem]
  intro i j hi hj hlt
  simpa [members] using hlt

theorem nodup_members (number : Nat) (batch : List α) : (members number batch).Nodup :=
  (pairwise_members number batch).imp fun hlt => by
    rintro rfl
    exact Nat.lt_irrefl _ hlt

variable {w : Use (Member α)} {m : Member α} {waiting : List (Member α)}

theorem Stacked.mem_batches (h : Stacked w) (hm : m ∈ w.frontier.pending) :
    m ∈ w.batches.flatten :=
  h.balanced.subset (List.mem_append_right _ hm)

/-- **A call keeps the stack**: the members of a new batch stand before all that is pending, and the
first pending member is taken away. -/
theorem Stacked.call (h : Stacked w) (c : Call α) :
    Stacked (w.call (c.numbered w.batches.length)) := by
  have balanced := h.balanced.call (c.numbered w.batches.length)
  have strategy := (strategy_call w (c.numbered w.batches.length)).trans h.strategy
  cases c with
  | schedule batch =>
    have new : ∀ m ∈ members w.batches.length batch, m.batch = w.batches.length :=
      fun m hm => (mem_members.mp hm).1
    refine ⟨strategy, ?_, ?_, ?_, balanced⟩
    · simp only [Call.numbered, Use.call, schedule, h.strategy]
      refine List.pairwise_append.mpr ⟨?_, h.pending, fun m hm m' hm' => .inl ?_⟩
      · refine (pairwise_members _ batch).imp_of_mem fun hm hm' hlt => .inr ⟨?_, hlt⟩
        rw [new _ hm, new _ hm']
      · rw [new m hm]
        exact h.numbers m' (h.mem_batches hm')
    · simp only [Call.numbered, Use.call, List.flatten_append, List.flatten_singleton]
      refine List.nodup_append.mpr ⟨h.scheduled, nodup_members _ batch, fun m hm m' hm' => ?_⟩
      -- the number of a batch is greater than those before it
      rintro rfl
      exact Nat.ne_of_lt (h.numbers m hm) (new m hm')
    · intro m hm
      simp only [Call.numbered, Use.call, List.flatten_append, List.flatten_singleton,
        List.mem_append, List.length_append, List.length_singleton] at hm ⊢
      rcases hm with hm | hm
      · exact Nat.lt_succ_of_lt (h.numbers m hm)
      · exact Nat.lt_succ_of_le (Nat.le_of_eq (new m hm))
  | next =>
    rw [Call.numbered] at balanced strategy ⊢
    cases hp : w.frontier.pending with
    | nil => rwa [call_next_of_nil hp]
    | cons m waiting =>
      rw [call_next_of_cons hp] at balanced strategy ⊢
      have pending := h.pending
      rw [hp] at pending
      exact ⟨strategy, pending.of_cons, h.scheduled, h.numbers, balanced⟩

theorem stacked_membersAfter (calls : List (Call α)) :
    Stacked (membersAfter .depthFirst calls) := by
  induction calls using List.reverseRecOn with
  | nil => exact ⟨rfl, .nil, .nil, nofun, List.Perm.refl []⟩
  | append_singleton calls c ih =>
    rw [membersAfter_snoc]
    exact ih.call c

/-- A member is due when it has been put in and has not come out, and precedes all others of which
this holds: it is the first one left of the newest batch that has any left. -/
structure IsDue (w : Use (Member α)) (m : Member α) : Prop where
  scheduled : m ∈ w.batches.flatten
  left : m ∉ w.returned
  precedes : ∀ m' ∈ w.batches.flatten, m' ∉ w.returned → m' = m ∨ m.Precedes m'

/-- Into depth, the first pending member is due. -/
theorem Stacked.isDue (h : Stacked w) (hp : w.frontier.pending = m :: waiting) : IsDue w m := by
  have apart : (w.returned ++ w.frontier.pending).Nodup := h.balanced.nodup_iff.mpr h.scheduled
  have pending := h.pending
  rw [hp] at pending apart
  refine ⟨h.mem_batches (hp ▸ List.mem_cons_self), fun hm => ?_, fun m' hm' hleft => ?_⟩
  · exact (List.nodup_append.mp apart).2.2 m hm m List.mem_cons_self rfl
  · -- what has not come out is pending, and the first of what is pending precedes the others
    have hm' : m' ∈ w.returned ++ w.frontier.pending := h.balanced.symm.subset hm'
    rw [List.mem_append, hp, List.mem_cons] at hm'
    rcases hm'.resolve_left hleft with rfl | hm'
    · exact .inl rfl
    · exact .inr (List.rel_of_pairwise_cons pending hm')

theorem batches_membersAfter (order : Strategy) (calls : List (Call α)) :
    (membersAfter order calls).batches = (after order calls).batches.mapIdx members := by
  induction calls using List.reverseRecOn with
  | nil => rfl
  | append_singleton calls c ih =>
    rw [membersAfter_snoc, after_snoc]
    cases c with
    | schedule batch => simp [Call.numbered, Use.call, ih]
    | next => rw [Call.numbered, batches_call_next, batches_call_next, ih]

/-! ## The discipline -/

/-- **After any calls** what has come out and what is pending make up what was put in, so that as
many items are pending as were put in and have not come out, and nothing comes out just when none
is. By levels, what has come out is the beginning of what was put in. Into depth, what comes out next
is the item of the first member left of the newest batch that has any left, where the members that
have come out are told apart by their batches and positions. -/
theorem discipline (order : Strategy) (calls : List (Call α)) :
    let u := after order calls
    let w := membersAfter .depthFirst calls
    (u.returned ++ u.frontier.pending).Perm u.batches.flatten ∧
      u.frontier.size + u.returned.length = u.batches.flatten.length ∧
      (u.frontier.next? = none ↔ u.frontier.size = 0) ∧
      (after .breadthFirst calls).returned <+: (after .breadthFirst calls).batches.flatten ∧
      w.map Member.item = after .depthFirst calls ∧
      w.batches = (after .depthFirst calls).batches.mapIdx members ∧
      ∀ m rest, w.frontier.next? = some (m, rest) → IsDue w m := by
  intro u w
  have balanced : Balanced u := balanced_after order calls
  refine ⟨balanced, ?_, next?_eq_none_iff, ⟨_, (queued_after calls).order⟩,
    map_item_membersAfter .depthFirst calls, batches_membersAfter .depthFirst calls,
    fun m rest hnext => ?_⟩
  · rw [size, Nat.add_comm, ← List.length_append, balanced.length_eq]
  · cases hp : w.frontier.pending with
    | nil => simp [next?, hp] at hnext
    | cons m' waiting =>
      simp only [next?, hp, Option.some.injEq, Prod.mk.injEq] at hnext
      obtain ⟨rfl, -⟩ := hnext
      exact (stacked_membersAfter calls).isDue hp

/-- A batch that is put in later has its turn before what an earlier one has left. -/
example : (after .depthFirst [.schedule [1, 2], .next, .schedule [3, 4], .next, .schedule [], .next,
    .next, .next]).returned = [1, 3, 4, 2] := rfl

end DirectoryListing.Frontier
