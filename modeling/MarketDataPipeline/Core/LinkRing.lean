import Mathlib

/-!
# Intrusive doubly linked lists

An intrusive list stores the links of its members in arrays indexed by member.
Its head and tail play the part of the links of a sentinel, so the whole list
is a ring through that sentinel: inserting or removing a member then needs no
case split on whether a neighbour exists.
-/

namespace MarketDataPipeline.LinkRing

variable {ι : Type*} {next prev next' prev' : ι → ι} {null : ι}

/-- `left` and `right` are neighbours, linked in both directions. -/
def Linked (next prev : ι → ι) (left right : ι) : Prop :=
  next left = right ∧ prev right = left

/-- `members`, in order, form a ring through the sentinel `null`. -/
structure IsRing (next prev : ι → ι) (null : ι) (members : List ι) : Prop where
  nodup : (null :: members).Nodup
  chain : List.IsChain (Linked next prev) (null :: (members ++ [null]))

/-- A chain reads the forward links of all its members but the last and the
backward links of all but the first. -/
theorem isChain_congr {members : List ι}
    (hchain : List.IsChain (Linked next prev) members)
    (hnext : ∀ node ∈ members.dropLast, next' node = next node)
    (hprev : ∀ node ∈ members.tail, prev' node = prev node) :
    List.IsChain (Linked next' prev') members := by
  induction hchain with
  | nil => exact .nil
  | singleton node => exact .singleton node
  | @cons_cons left right rest hlink _ ih =>
      have hnextLeft : next' left = next left :=
        hnext left (by simp)
      have hprevRight : prev' right = prev right :=
        hprev right (by simp)
      refine .cons_cons ⟨hnextLeft.trans hlink.1, hprevRight.trans hlink.2⟩ ?_
      apply ih
      · intro node hnode
        exact hnext node (by simp [hnode])
      · intro node hnode
        exact hprev node (by
          rw [List.tail_cons] at hnode ⊢
          exact List.mem_cons_of_mem right hnode)

/-- Links outside the members and the sentinel do not matter. -/
theorem IsRing.congr {members : List ι} (hring : IsRing next prev null members)
    (hnext : ∀ node ∈ null :: members, next' node = next node)
    (hprev : ∀ node ∈ null :: members, prev' node = prev node) :
    IsRing next' prev' null members := by
  refine ⟨hring.nodup, isChain_congr hring.chain ?_ ?_⟩
  · intro node hnode
    rw [← List.cons_append, List.dropLast_concat] at hnode
    exact hnext node hnode
  · intro node hnode
    apply hprev node
    simpa [or_comm] using hnode

theorem isRing_nil_iff :
    IsRing next prev null [] ↔ next null = null ∧ prev null = null := by
  constructor
  · intro hring
    simpa [Linked] using hring.chain
  · intro hlink
    exact ⟨by simp, by simpa [Linked] using hlink⟩

/-- The members read backwards form the ring with the links exchanged. -/
theorem IsRing.reverse {members : List ι}
    (hring : IsRing next prev null members) :
    IsRing prev next null members.reverse := by
  refine ⟨by simpa using hring.nodup, ?_⟩
  have hreverse : null :: (members.reverse ++ [null]) =
      (null :: (members ++ [null])).reverse := by simp
  rw [hreverse, List.isChain_reverse]
  exact hring.chain.imp fun left right hlink => ⟨hlink.2, hlink.1⟩

/-- The sentinel's forward link is the head of the list. -/
theorem IsRing.next_null {members : List ι}
    (hring : IsRing next prev null members) :
    next null = members.headD null := by
  have hchain := hring.chain
  cases members with
  | nil => exact (List.isChain_cons_cons.mp hchain).1.1
  | cons node rest => exact (List.isChain_cons_cons.mp hchain).1.1

/-- The sentinel's backward link is the tail of the list. -/
theorem IsRing.prev_null {members : List ι}
    (hring : IsRing next prev null members) :
    prev null = members.getLastD null := by
  rw [hring.reverse.next_null, List.headD_eq_head?_getD, List.head?_reverse,
    List.getLastD_eq_getLast?]

/-- The tail of a list with members is one of them. -/
theorem IsRing.prev_null_mem {members : List ι}
    (hring : IsRing next prev null members)
    (hne : members ≠ []) : prev null ∈ members := by
  rw [hring.prev_null, List.getLastD_eq_getLast?,
    List.getLast?_eq_some_getLast hne]
  exact List.getLast_mem hne

theorem IsRing.null_notMem {members : List ι}
    (hring : IsRing next prev null members) :
    null ∉ members :=
  (List.nodup_cons.mp hring.nodup).1

/-! ## Splitting a ring at one place -/

/-- The links of a ring across the seam between two parts of its members. -/
theorem isChain_seam {before after : List ι} :
    List.IsChain (Linked next prev) (null :: ((before ++ after) ++ [null])) ↔
      List.IsChain (Linked next prev) (null :: before) ∧
        List.IsChain (Linked next prev) (after ++ [null]) ∧
        Linked next prev (before.getLastD null) (after.headD null) := by
  rw [List.append_assoc, ← List.cons_append, List.isChain_append]
  have hlast : (null :: before).getLast? = some (before.getLastD null) := by
    rw [List.getLast?_cons, List.getLastD_eq_getLast?]
  have hhead : (after ++ [null]).head? = some (after.headD null) := by
    cases after <;> simp
  simp [hlast, hhead]

/-- The neighbours of a member are its links. -/
theorem IsRing.neighbours {before after : List ι} {node : ι}
    (hring : IsRing next prev null (before ++ node :: after)) :
    next node = after.headD null ∧ prev node = before.getLastD null := by
  obtain ⟨_, hafter, hseam⟩ := isChain_seam.mp hring.chain
  refine ⟨?_, hseam.2⟩
  cases after with
  | nil => exact (List.isChain_cons_cons.mp hafter).1.1
  | cons right rest => exact (List.isChain_cons_cons.mp hafter).1.1

theorem headD_mem (null : ι) (after : List ι) :
    after.headD null ∈ after ++ [null] := by
  cases after <;> simp

/-- The sentinel's forward link leads to a member or back to the sentinel. -/
theorem IsRing.next_null_mem_cons {members : List ι}
    (hring : IsRing next prev null members) :
    next null ∈ null :: members := by
  have hhead := headD_mem null members
  rw [hring.next_null]
  exact (List.perm_append_singleton null members).mem_iff.mp hhead

/-- The others of a list split at a member are members. -/
theorem mem_of_split {members before after : List ι} {node other : ι}
    (hsplit : members = before ++ node :: after)
    (hother : other ∈ before ++ after) :
    other ∈ members := by
  rw [hsplit]
  exact List.perm_middle.symm.subset (List.mem_cons_of_mem _ hother)

/-- A member is not among the others. -/
theorem IsRing.notMem_others {before after : List ι} {node : ι}
    (hring : IsRing next prev null (before ++ node :: after)) :
    node ∉ null :: (before ++ after) := by
  have hperm : (null :: (before ++ node :: after)).Perm
      (node :: null :: (before ++ after)) :=
    (List.perm_middle.cons null).trans (List.Perm.swap node null _)
  exact (List.nodup_cons.mp (hperm.nodup_iff.mp hring.nodup)).1

/-- The links of a member lead to others or to the sentinel. -/
theorem IsRing.next_mem_others {before after : List ι} {node : ι}
    (hring : IsRing next prev null (before ++ node :: after)) :
    next node ∈ null :: (before ++ after) := by
  have hhead := headD_mem null after
  rw [← hring.neighbours.1, List.mem_append, List.mem_singleton] at hhead
  rw [List.mem_cons, List.mem_append]
  exact hhead.symm.imp_right Or.inr

theorem IsRing.prev_mem_others {before after : List ι} {node : ι}
    (hring : IsRing next prev null (before ++ node :: after)) :
    prev node ∈ null :: (before ++ after) := by
  have hlast : before.getLastD null ∈ null :: before := List.getLastD_mem_cons
  rw [← hring.neighbours.2, List.mem_cons] at hlast
  rw [List.mem_cons, List.mem_append]
  exact hlast.imp_right Or.inl

/-- In a list without repetition the last member is not among the others. -/
theorem ne_getLastD_of_mem_dropLast {before : List ι}
    (hnodup : (null :: before).Nodup) {node : ι}
    (hnode : node ∈ (null :: before).dropLast) :
    node ≠ before.getLastD null := by
  have hsplit : (null :: before).dropLast ++ [before.getLastD null] =
      null :: before := by
    rw [List.getLastD_eq_getLast?]
    exact List.dropLast_append_getLast?
      _ (by cases before <;> simp [List.getLast?_cons])
  rw [← hsplit, List.nodup_append] at hnodup
  exact hnodup.2.2 node hnode _ (by simp)

/-- Changing the forward links of the members behind the seam and the backward
links of those before it leaves each part linked. -/
theorem isChain_parts_congr {before after : List ι}
    (hnodup : (null :: (before ++ after)).Nodup)
    (hbefore : List.IsChain (Linked next prev) (null :: before))
    (hafter : List.IsChain (Linked next prev) (after ++ [null]))
    (hnext : ∀ node ∈ null :: (before ++ after), node ≠ before.getLastD null →
      next' node = next node)
    (hprev : ∀ node ∈ null :: (before ++ after), node ≠ after.headD null →
      prev' node = prev node) :
    List.IsChain (Linked next' prev') (null :: before) ∧
      List.IsChain (Linked next' prev') (after ++ [null]) := by
  have hcons := List.nodup_cons.mp hnodup
  have happend := List.nodup_append.mp hcons.2
  have hnull : null ∉ before ∧ null ∉ after := by simpa using hcons.1
  have hnodupBefore : (null :: before).Nodup :=
    List.nodup_cons.mpr ⟨hnull.1, happend.1⟩
  constructor
  · refine isChain_congr hbefore (fun node hnode => ?_) (fun node hnode => ?_)
    · refine hnext node ?_ (ne_getLastD_of_mem_dropLast hnodupBefore hnode)
      have := List.mem_of_mem_dropLast hnode
      simp only [List.mem_cons, List.mem_append] at this ⊢
      tauto
    · rw [List.tail_cons] at hnode
      refine hprev node (by simp [hnode]) ?_
      intro heq
      have hright := headD_mem null after
      rw [← heq] at hright
      rcases List.mem_append.mp hright with hmem | hmem
      · exact happend.2.2 node hnode node hmem rfl
      · rw [List.mem_singleton.mp hmem] at hnode
        exact hnull.1 hnode
  · refine isChain_congr hafter (fun node hnode => ?_) (fun node hnode => ?_)
    · rw [List.dropLast_concat] at hnode
      refine hnext node (by simp [hnode]) ?_
      intro heq
      have hleft : before.getLastD null ∈ null :: before :=
        List.getLastD_mem_cons
      rw [← heq] at hleft
      rcases List.mem_cons.mp hleft with hmem | hmem
      · rw [hmem] at hnode
        exact hnull.2 hnode
      · exact happend.2.2 node hmem node hnode rfl
    · cases after with
      | nil => simp at hnode
      | cons right rest =>
          have hnode' : node ∈ rest ∨ node = null := by simpa using hnode
          refine hprev node (by simp; tauto) ?_
          rintro rfl
          rcases hnode' with hmem | hmem
          · exact (List.nodup_cons.mp happend.2.1).1 hmem
          · exact hnull.2 (by simp [← hmem])

/-- Linking a fresh node in at a seam. -/
theorem IsRing.insert {before after : List ι} {node : ι}
    (hring : IsRing next prev null (before ++ after))
    (hfresh : node ∉ null :: (before ++ after))
    (hleft : next' (before.getLastD null) = node)
    (hright : prev' (after.headD null) = node)
    (hnextNode : next' node = after.headD null)
    (hprevNode : prev' node = before.getLastD null)
    (hnext : ∀ other ∈ null :: (before ++ after), other ≠ before.getLastD null →
      next' other = next other)
    (hprev : ∀ other ∈ null :: (before ++ after), other ≠ after.headD null →
      prev' other = prev other) :
    IsRing next' prev' null (before ++ node :: after) := by
  obtain ⟨hbefore, hafter, _⟩ := isChain_seam.mp hring.chain
  obtain ⟨hbefore', hafter'⟩ :=
    isChain_parts_congr hring.nodup hbefore hafter hnext hprev
  have hperm : (null :: (before ++ node :: after)).Perm
      (node :: null :: (before ++ after)) :=
    (List.perm_middle.cons null).trans (List.Perm.swap node null _)
  refine ⟨hperm.nodup_iff.mpr (List.nodup_cons.mpr ⟨hfresh, hring.nodup⟩), ?_⟩
  rw [isChain_seam]
  refine ⟨hbefore', ?_, hleft, hprevNode⟩
  rw [List.cons_append, List.isChain_cons]
  refine ⟨fun right hright' => ?_, hafter'⟩
  have hhead : (after ++ [null]).head? = some (after.headD null) := by
    cases after <;> simp
  obtain rfl : after.headD null = right := by
    simpa only [hhead, Option.mem_def, Option.some.injEq] using hright'
  exact ⟨hnextNode, hright⟩

/-- Linking a fresh node in behind the sentinel. -/
theorem IsRing.insertFront {members : List ι} {node : ι}
    (hring : IsRing next prev null members) (hfresh : node ∉ null :: members)
    (hleft : next' null = node) (hright : prev' (members.headD null) = node)
    (hnextNode : next' node = members.headD null)
    (hprevNode : prev' node = null)
    (hnext : ∀ other ∈ members, next' other = next other)
    (hprev : ∀ other ∈ null :: members, other ≠ members.headD null →
      prev' other = prev other) :
    IsRing next' prev' null (node :: members) := by
  have hseam : IsRing next prev null ([] ++ members) := hring
  refine hseam.insert hfresh hleft hright hnextNode hprevNode
    (fun other hother hne => ?_) hprev
  exact hnext other ((List.mem_cons.mp hother).resolve_left hne)

/-- Unlinking a member: its neighbours are linked to each other. -/
theorem IsRing.remove {before after : List ι} {node : ι}
    (hring : IsRing next prev null (before ++ node :: after))
    (hleft : next' (prev node) = next node)
    (hright : prev' (next node) = prev node)
    (hnext : ∀ other ∈ null :: (before ++ after), other ≠ prev node →
      next' other = next other)
    (hprev : ∀ other ∈ null :: (before ++ after), other ≠ next node →
      prev' other = prev other) :
    IsRing next' prev' null (before ++ after) := by
  obtain ⟨hbefore, hafter, _⟩ := isChain_seam.mp hring.chain
  obtain ⟨hnextNode, hprevNode⟩ := hring.neighbours
  rw [List.cons_append, List.isChain_cons] at hafter
  have hperm : (null :: (before ++ node :: after)).Perm
      (node :: null :: (before ++ after)) :=
    (List.perm_middle.cons null).trans (List.Perm.swap node null _)
  have hnodup := (List.nodup_cons.mp (hperm.nodup_iff.mp hring.nodup)).2
  rw [hnextNode, hprevNode] at hleft hright
  rw [hprevNode] at hnext
  rw [hnextNode] at hprev
  obtain ⟨hbefore', hafter'⟩ :=
    isChain_parts_congr hnodup hbefore hafter.2 hnext hprev
  exact ⟨hnodup, isChain_seam.mpr ⟨hbefore', hafter', hleft, hright⟩⟩

/-! ## Walking a list from one end -/

/-- The members met by following `next` from `node`, at most `fuel` of them. -/
def walk [DecidableEq ι] (next : ι → ι) (null : ι) : ℕ → ι → List ι
  | 0, _ => []
  | fuel + 1, node =>
      if node = null then [] else node :: walk next null fuel (next node)

/-- `next` leads from `node` through exactly `members` and then to `null`. -/
def IsPath (next : ι → ι) (null : ι) : ι → List ι → Prop
  | node, [] => node = null
  | node, member :: rest =>
      node = member ∧ member ≠ null ∧ IsPath next null (next member) rest

theorem IsPath.congr {members : List ι} {node : ι}
    (hpath : IsPath next null node members)
    (hnext : ∀ member ∈ members, next' member = next member) :
    IsPath next' null node members := by
  induction members generalizing node with
  | nil => exact hpath
  | cons member rest ih =>
      obtain ⟨hnode, hne, hrest⟩ := hpath
      refine ⟨hnode, hne, ?_⟩
      rw [hnext member (by simp)]
      exact ih hrest fun other hother => hnext other (by simp [hother])

theorem IsPath.walk_eq [DecidableEq ι] {members : List ι} {node : ι}
    (hpath : IsPath next null node members) {fuel : ℕ}
    (hfuel : members.length ≤ fuel) :
    walk next null fuel node = members := by
  induction members generalizing node fuel with
  | nil =>
      cases fuel with
      | zero => rfl
      | succ fuel => exact if_pos hpath
  | cons member rest ih =>
      obtain ⟨rfl, hne, hrest⟩ := hpath
      cases fuel with
      | zero => simp at hfuel
      | succ fuel =>
          rw [walk, if_neg hne, ih hrest (by simpa using hfuel)]

/-- The forward links lead from the head through all members. -/
theorem IsRing.isPath {members : List ι}
    (hring : IsRing next prev null members) :
    IsPath next null (next null) members := by
  have hstep : ∀ (rest : List ι) (node : ι), null ∉ rest →
      List.IsChain (Linked next prev) (node :: (rest ++ [null])) →
      IsPath next null (next node) rest := by
    intro rest
    induction rest with
    | nil =>
        intro node _ hchain
        exact (List.isChain_cons_cons.mp hchain).1.1
    | cons member rest ih =>
        intro node hnull hchain
        obtain ⟨hlink, hrest⟩ := List.isChain_cons_cons.mp hchain
        rw [List.mem_cons, not_or] at hnull
        exact ⟨hlink.1, Ne.symm hnull.1, ih member hnull.2 hrest⟩
  exact hstep members null hring.null_notMem hring.chain

end MarketDataPipeline.LinkRing
