import Savoire.Page.SharedPage

/-! What the members of a page insert while others do: as long as nobody begins the page a second time, all of
it is shown. -/
namespace Savoire.PageMirror
open SharedMaps SharedSequence Transition
variable {κ α : Type*} [DecidableEq κ]

/-- A page that nobody has written, or one that a member has written. -/
def start (w : LastWriter κ Unit) (q : Sequence) (page : Option (κ × List α)) : Page κ α :=
  let empty : List α → Page κ α := fun l =>
    ⟨⟨[], fun _ _ => false⟩, [], [], fun _ _ => false, fun _ _ => false, fun _ => none, l, []⟩
  match page with
  | none => empty []
  | some (i, l) => (empty l).setDoc w q i (l.zipIdx.map Prod.swap)

/-- A member that inserts has the element under 'doc', unless nobody has made one. -/
def Clear (w : LastWriter κ Unit) (s : Page κ α) : Event κ α → Prop
  | .insert i _ _ => s.tree.log = [] ∨ (s.treeDoc w i).isSome
  | _ => True

/-- Those who have opened the page have all that was written and deleted. -/
structure Exchanged (s : Page κ α) : Prop where
  docs : ∀ {i : κ} {m : Mirror α}, s.mirrors i = some m → ∀ n < s.tree.log.length, s.tree.known i n = true
  blocks : ∀ {i : κ} {m : Mirror α}, s.mirrors i = some m → ∀ n < s.blocks.length, s.known i n = true
  gone : ∀ {i : κ} {m : Mirror α}, s.mirrors i = some m → ∀ n ∈ s.deleted, s.gone i n = true

structure Kept (s : Page κ α) : Prop where
  same : ∀ {i j : κ} {m m' : Mirror α}, s.mirrors i = some m → s.mirrors j = some m' → m.fragment = m'.fragment
  kept : ∀ {i : κ} {m : Mirror α} {n : Nat} {content : α}, s.mirrors i = some m →
    s.inserted[n]? = some content → n ∉ s.removed → (n, content) ∈ m.fragment

structure Stored (s : Page κ α) : Prop where
  once : Once s.tree
  doc : ∀ {id : Nat} {e : SharedMaps.Entry κ Unit}, s.tree.log[id]? = some e →
    id = 0 ∧ e.node = none ∧ e.key = docKey ∧ e.content = .map
  has : ∀ {i : κ} {n : Nat}, s.tree.known i n = true → n < s.tree.log.length
  bounded : Bounded s
  gone : ∀ {i : κ} {n : Nat}, s.gone i n = true → n ∈ s.deleted
  deleted : ∀ {n : Nat}, n ∈ s.deleted → n < s.blocks.length ∧ n ∈ s.removed
  block : ∀ {n : Nat} {b : Block α}, s.blocks[n]? = some b →
    b.parent = 0 ∧ b.label = n ∧ s.inserted[n]? = some b.content

structure Mirrors (w : LastWriter κ Unit) (q : Sequence) (s : Page κ α) (i : κ) (m : Mirror α) : Prop where
  bound : m.bound = s.treeDoc w i
  fragment : m.fragment = (s.treeDoc w i).elim [] (s.shown q i)

structure Inv (w : LastWriter κ Unit) (q : Sequence) (s : Page κ α) : Prop where
  stored : Stored s
  count : s.blocks.length = s.inserted.length
  unwritten : s.tree.log = [] → s.blocks = []
  mirror : ∀ {i : κ} {m : Mirror α}, s.mirrors i = some m → Mirrors w q s i m

section Steps
variable {w : LastWriter κ Unit} {q : Sequence} {i j : κ} {s s' : Page κ α} {m : Mirror α} {d index n : Nat}
  {x : Nat × α} {content : α}

omit [DecidableEq κ] in
theorem Stored.treeDoc (h : Stored s) (i : κ) : s.treeDoc w i = if s.tree.known i 0 then some 0 else none := by
  split
  · rename_i hknown
    have hlt := h.has hknown
    have he := List.getElem?_eq_getElem hlt
    obtain ⟨-, hnode, hkey, hmap⟩ := h.doc he
    have hget := h.once.get_map (w := w) he hmap hknown
    rw [hnode, hkey] at hget
    rw [Page.treeDoc, hget]
  · rename_i hknown
    have hwinner : s.tree.winner w i none docKey = none := by
      refine Option.eq_none_iff_forall_ne_some.mpr fun id hid => ?_
      obtain ⟨e, he⟩ := w.mem hid
      obtain ⟨hlog, hid, -⟩ := mem_candidates.mp he
      rw [(h.doc hlog).1] at hid
      exact hknown hid
    rw [Page.treeDoc, SharedMaps.Doc.get, hwinner]
    rfl

omit [DecidableEq κ] in
theorem Stored.treeDoc_eq_zero (h : Stored s) (hd : s.treeDoc w i = some d) : d = 0 := by
  rw [h.treeDoc] at hd
  split at hd
  · exact (Option.some.inj hd).symm
  · cases hd

omit [DecidableEq κ] in
theorem Stored.log_ne_nil (h : Stored s) (hd : s.treeDoc w i = some d) : s.tree.log ≠ [] := by
  intro hnil
  rw [h.treeDoc] at hd
  split at hd
  · rename_i hknown
    have hlt := h.has hknown
    simp [hnil] at hlt
  · cases hd

omit [DecidableEq κ] in
theorem Mirrors.of_same (h : Mirrors w q s i m) (hs : Stored s) (hdoc : s'.treeDoc w i = s.treeDoc w i)
    (hshown : s'.shown q i 0 = s.shown q i 0) : Mirrors w q s' i m where
  bound := h.bound.trans hdoc.symm
  fragment := by
    rw [h.fragment, hdoc]
    cases hd : s.treeDoc w i with
    | none => rfl
    | some d => rw [hs.treeDoc_eq_zero hd, Option.elim_some, Option.elim_some, hshown]

theorem Inv.setMirror (hs : Stored s) (hmirror : ∀ {j : κ} {m : Mirror α}, s.mirrors j = some m → Mirrors w q s j m)
    (hs' : Stored s') (hcount : s'.blocks.length = s'.inserted.length) (hunwritten : s'.tree.log = [] → s'.blocks = [])
    (hmirrors : s'.mirrors = s.mirrors)
    (hothers : ∀ j, j ≠ i → s'.treeDoc w j = s.treeDoc w j ∧ s'.shown q j 0 = s.shown q j 0)
    (hown : Mirrors w q s' i m) : Inv w q (s'.setMirror i m) where
  stored := ⟨hs'.once, hs'.doc, hs'.has, ⟨hs'.bounded.known, hs'.bounded.gone⟩, hs'.gone, hs'.deleted, hs'.block⟩
  count := hcount
  unwritten := hunwritten
  mirror := by
    intro j m' hm
    change Function.update s'.mirrors i (some m) j = some m' at hm
    by_cases hj : j = i
    · subst hj
      rw [Function.update_self] at hm
      cases hm
      exact ⟨hown.bound, hown.fragment⟩
    · rw [Function.update_of_ne hj, hmirrors] at hm
      obtain ⟨hdoc, hshown⟩ := hothers j hj
      exact (hmirror hm).of_same hs hdoc hshown

omit [DecidableEq κ] in
theorem Stored.inserted (h : Stored s) (content : α) : Stored { s with inserted := s.inserted ++ [content] } where
  __ := h
  bounded := ⟨h.bounded.known, h.bounded.gone⟩
  block hb := by
    obtain ⟨hparent, hlabel, hcontent⟩ := h.block hb
    refine ⟨hparent, hlabel, ?_⟩
    rw [List.getElem?_append_left (List.getElem?_eq_some_iff.mp hcontent).1, hcontent]

omit [DecidableEq κ] in
theorem Stored.removed (h : Stored s) (n : Nat) : Stored { s with removed := n :: s.removed } where
  __ := h
  bounded := ⟨h.bounded.known, h.bounded.gone⟩
  deleted hk := ⟨(h.deleted hk).1, List.mem_cons_of_mem n (h.deleted hk).2⟩

theorem Stored.insertBlock (h : Stored s) (hlabel : x.1 = s.blocks.length)
    (hcontent : s.inserted[x.1]? = some x.2) : Stored (s.insertBlock q i 0 index x) where
  __ := h
  bounded := h.bounded.insertBlock
  deleted hk := by
    obtain ⟨hlt, hremoved⟩ := h.deleted hk
    exact ⟨by rw [Page.insertBlock, List.length_append]; omega, hremoved⟩
  block := by
    intro n b hb
    obtain hlt | rfl | hgt := Nat.lt_trichotomy n s.blocks.length
    · rw [blocks_insertBlock_old hlt] at hb
      exact h.block hb
    · rw [Page.insertBlock, List.getElem?_concat_length] at hb
      cases hb
      exact ⟨rfl, hlabel, hlabel ▸ hcontent⟩
    · have hlt := (List.getElem?_eq_some_iff.mp hb).1
      rw [Page.insertBlock, List.length_append, List.length_singleton] at hlt
      omega

theorem Stored.deleteBlock (h : Stored s) (hn : (s.children q i d)[index]? = some n) (hremoved : n ∈ s.removed) :
    Stored (s.deleteBlock q i d index) := by
  have hlt : n < s.blocks.length := items_lt (mem_children.mp (List.mem_of_getElem? hn)).1
  rw [deleteBlock_eq hn]
  have hgone : ∀ {j : κ} {k : Nat}, (s.gone j k || (decide (j = i) && k == n)) = true → k ∈ n :: s.deleted := by
    intro j k hk
    obtain hk | ⟨-, rfl⟩ : s.gone j k = true ∨ j = i ∧ k = n := by simpa using hk
    · exact List.mem_cons_of_mem n (h.gone hk)
    · exact List.mem_cons_self
  have hdeleted : ∀ {k : Nat}, k ∈ n :: s.deleted → k < s.blocks.length ∧ k ∈ s.removed := by
    intro k hk
    obtain rfl | hk := List.mem_cons.mp hk
    · exact ⟨hlt, hremoved⟩
    · exact h.deleted hk
  exact ⟨h.once, h.doc, h.has, ⟨h.bounded.known, fun hk => (hdeleted (hgone hk)).1⟩, hgone, hdeleted, h.block⟩

/-- What filling an empty element leaves. -/
structure Filled (q : Sequence) (i : κ) (s s' : Page κ α) (l : List (Nat × α)) : Prop where
  stored : Stored s'
  tree : s'.tree = s.tree
  mirrors : s'.mirrors = s.mirrors
  inserted : s'.inserted = s.inserted
  removed : s'.removed = s.removed
  count : s'.blocks.length = s.blocks.length + l.length
  shown : s'.shown q i 0 = s.shown q i 0 ++ l
  others : ∀ {j : κ}, j ≠ i → s'.shown q j 0 = s.shown q j 0

theorem Stored.fill (l : List (Nat × α)) (h : Stored s) (hlength : (s.shown q i 0).length = s.blocks.length)
    (hl : ∀ x ∈ l.zipIdx s.blocks.length, x.1.1 = x.2 ∧ s.inserted[x.2]? = some x.1.2) :
    Filled q i s ((l.zipIdx s.blocks.length).foldl (fun s x => s.insertBlock q i 0 x.2 x.1) s) l := by
  induction l generalizing s with
  | nil => exact ⟨h, rfl, rfl, rfl, rfl, rfl, (List.append_nil _).symm, fun _ => rfl⟩
  | cons x l ih =>
    let s1 := s.insertBlock q i 0 s.blocks.length x
    obtain ⟨hlabel, hcontent⟩ := hl (x, s.blocks.length) (by simp)
    have hstored : Stored s1 := h.insertBlock hlabel (hlabel ▸ hcontent)
    have hcount : s1.blocks.length = s.blocks.length + 1 := by simp [s1, Page.insertBlock]
    have hshown : s1.shown q i 0 = s.shown q i 0 ++ [x] := by
      rw [shown_insertBlock h.bounded (le_of_eq hlength.symm), ← hlength, List.insertIdx_length_self]
    have hrest := ih hstored (by rw [hshown, hcount, List.length_append, hlength, List.length_singleton])
      fun y hy => hl y (by
        rw [List.zipIdx_cons, ← hcount]
        exact List.mem_cons_of_mem _ hy)
    rw [List.zipIdx_cons, List.foldl_cons, ← hcount]
    exact {
      __ := hrest
      count := by rw [hrest.count, hcount, List.length_cons]; omega
      shown := by rw [hrest.shown, hshown, List.append_assoc, List.singleton_append]
      others := fun hj => (hrest.others hj).trans (shown_insertBlock_of_ne h.bounded hj) }

theorem Stored.setDoc (l : List (Nat × α)) (h : Stored s) (htree : s.tree.log = []) (hblocks : s.blocks = [])
    (hl : ∀ x ∈ l.zipIdx, x.1.1 = x.2 ∧ s.inserted[x.2]? = some x.1.2) :
    Filled q i { s with tree := s.tree.set w i none docKey .map } (s.setDoc w q i l) l ∧
      s.shown q i 0 = [] := by
  have hnone : ∀ {id : Nat} {e : SharedMaps.Entry κ Unit}, s.tree.log[id]? ≠ some e := fun {id e} he => by
    simp [htree] at he
  have hset : Stored { s with tree := s.tree.set w i none docKey .map } := {
    once := h.once.set (fun _ hn => by cases hn) fun j x hx => absurd hx hnone
    doc := fun he => by
      obtain he | ⟨rfl, rfl⟩ := getElem?_set.mp he
      · exact absurd he hnone
      · rw [htree]
        exact ⟨rfl, rfl, rfl, rfl⟩
    has := fun {j n} hn => by
      have hn : s.tree.known j n = true ∨ j = i ∧ n = s.tree.log.length := by
        simpa [SharedMaps.Doc.set] using hn
      rw [SharedMaps.Doc.set, List.length_append, List.length_singleton]
      obtain hn | ⟨-, rfl⟩ := hn
      · exact Nat.lt_succ_of_lt (h.has hn)
      · omega
    bounded := ⟨h.bounded.known, h.bounded.gone⟩
    gone := h.gone
    deleted := h.deleted
    block := h.block }
  have hempty : s.shown q i 0 = [] := by
    rw [← List.length_eq_zero_iff, shown_length, List.length_eq_zero_iff, List.eq_nil_iff_forall_not_mem]
    intro n hn
    have hlt := items_lt (mem_children.mp hn).1
    simp [hblocks] at hlt
  have hzero : s.blocks.length = 0 := by rw [hblocks]; rfl
  have hlog : s.tree.log.length = 0 := by rw [htree]; rfl
  have hfill := hset.fill (q := q) (i := i) l
    ((congrArg List.length hempty).trans hzero.symm) (by simpa only [hzero] using hl)
  rw [show Page.setDoc w q i s l = (l.zipIdx s.blocks.length).foldl (fun s x => s.insertBlock q i 0 x.2 x.1)
    { s with tree := s.tree.set w i none docKey .map } by rw [Page.setDoc, hzero, hlog]]
  exact ⟨hfill, hempty⟩

theorem Inv.writeWholeDoc {l : List (Nat × α)} (h : Stored s) (htree : s.tree.log = []) (hblocks : s.blocks = [])
    (hmirror : ∀ {j : κ} {m : Mirror α}, s.mirrors j = some m → Mirrors w q s j m)
    (hl : ∀ x ∈ l.zipIdx, x.1.1 = x.2 ∧ s.inserted[x.2]? = some x.1.2) (hlength : l.length = s.inserted.length) :
    Inv w q (s.writeWholeDoc w q i l) := by
  obtain ⟨hfill, hempty⟩ := h.setDoc (w := w) (q := q) (i := i) l htree hblocks hl
  have hlog : (s.setDoc w q i l).tree.log.length = 1 := by rw [hfill.tree, SharedMaps.Doc.set, htree]; rfl
  have hknown : ∀ j, (s.setDoc w q i l).tree.known j 0 = (s.tree.known j 0 || decide (j = i)) := fun j => by
    rw [hfill.tree, SharedMaps.Doc.set, htree]
    simp
  have hdoc : ∀ j, (s.setDoc w q i l).treeDoc w j = if s.tree.known j 0 || decide (j = i) then some 0 else none :=
    fun j => by rw [hfill.stored.treeDoc, hknown]
  have hcount : (s.setDoc w q i l).blocks.length = (s.setDoc w q i l).inserted.length := by
    calc (s.setDoc w q i l).blocks.length = s.blocks.length + l.length := hfill.count
      _ = s.inserted.length := by rw [hblocks, hlength, List.length_nil, Nat.zero_add]
      _ = (s.setDoc w q i l).inserted.length := by rw [hfill.inserted]
  have hshown : (s.setDoc w q i l).shown q i 0 = l := by
    calc (s.setDoc w q i l).shown q i 0 = s.shown q i 0 ++ l := hfill.shown
      _ = l := by rw [hempty, List.nil_append]
  refine Inv.setMirror h hmirror hfill.stored hcount (fun hnil => ?_) hfill.mirrors
    (fun j hj => ⟨?_, hfill.others hj⟩) ?_
  · rw [hnil] at hlog
    cases hlog
  · simp [hdoc, h.treeDoc, hj]
  · exact ⟨by simp [hdoc, htree], by simp [hdoc, hshown]⟩

theorem Stored.loadFromTree (hs : Stored s)
    (hmirror : ∀ {j : κ} {m : Mirror α}, s.mirrors j = some m → Mirrors w q s j m)
    (hs' : Stored s') (hcount : s'.blocks.length = s'.inserted.length) (hunwritten : s'.tree.log = [] → s'.blocks = [])
    (hmirrors : s'.mirrors = s.mirrors)
    (hothers : ∀ j, j ≠ i → s'.treeDoc w j = s.treeDoc w j ∧ s'.shown q j 0 = s.shown q j 0) :
    Inv w q (s'.loadFromTree w q i) := by
  unfold Page.loadFromTree
  split
  · rename_i d hd
    exact Inv.setMirror hs hmirror hs' hcount hunwritten hmirrors hothers ⟨hd.symm, by rw [hd]; rfl⟩
  · rename_i hd
    exact Inv.setMirror hs hmirror hs' hcount hunwritten hmirrors hothers ⟨hd.symm, by rw [hd]; rfl⟩

theorem Inv.insert (h : Inv w q s) (hm : s.mirrors i = some m) (hclear : s.tree.log = [] ∨ (s.treeDoc w i).isSome)
    (hindex : index ≤ m.fragment.length) :
    Inv w q ({ s with inserted := s.inserted ++ [content] }.pushToTree w q i m
      (m.fragment.insertIdx index (s.inserted.length, content))
      fun t =>
        { s with inserted := s.inserted ++ [content] }.insertBlock q i t index (s.inserted.length, content)) := by
  let s1 : Page κ α := { s with inserted := s.inserted ++ [content] }
  have hs1 : Stored s1 := h.stored.inserted content
  have hmirrors1 : ∀ {j : κ} {m : Mirror α}, s1.mirrors j = some m → Mirrors w q s1 j m := fun hm =>
    ⟨(h.mirror hm).bound, (h.mirror hm).fragment⟩
  have hbound := (h.mirror hm).bound
  have hfragment := (h.mirror hm).fragment
  have hdoc1 : { s with inserted := s.inserted ++ [content] }.treeDoc w i = s.treeDoc w i := rfl
  rw [Page.pushToTree, hbound, hdoc1]
  cases hdoc : s.treeDoc w i with
  | none =>
    -- Nobody has begun the page: this is its first write.
    have hlog : s.tree.log = [] := hclear.resolve_right (by simp [hdoc])
    have hblocks := h.unwritten hlog
    have hinserted : s.inserted = [] := List.length_eq_zero_iff.mp (by rw [← h.count, hblocks]; rfl)
    rw [hdoc, Option.elim_none] at hfragment
    rw [hfragment, List.length_nil, Nat.le_zero] at hindex
    rw [hfragment, hindex, List.insertIdx_zero]
    refine Inv.writeWholeDoc hs1 hlog hblocks hmirrors1 (fun x hx => ?_) ?_
    · obtain rfl : x = ((s.inserted.length, content), 0) := by simpa using hx
      simp [hinserted]
    · simp [hinserted]
  | some d =>
    obtain rfl := h.stored.treeDoc_eq_zero hdoc
    rw [hdoc, Option.elim_some] at hfragment
    have hnumber : s.inserted.length = s1.blocks.length := h.count.symm
    have hstored : Stored (s1.insertBlock q i 0 index (s.inserted.length, content)) :=
      hs1.insertBlock hnumber (by simp [s1])
    have hown : (s1.insertBlock q i 0 index (s.inserted.length, content)).shown q i 0 =
        m.fragment.insertIdx index (s.inserted.length, content) := by
      rw [hfragment] at hindex ⊢
      exact shown_insertBlock hs1.bounded hindex
    simp only [ne_eq, not_true, if_false]
    refine Inv.setMirror hs1 hmirrors1 hstored ?_ (fun hlog => ?_) rfl
      (fun j hj => ⟨rfl, shown_insertBlock_of_ne hs1.bounded hj⟩) ⟨hdoc.symm, ?_⟩
    · show (s.blocks ++ [_]).length = (s.inserted ++ [content]).length
      rw [List.length_append, List.length_append, h.count]
      rfl
    · exact absurd hlog (h.stored.log_ne_nil hdoc)
    · show m.fragment.insertIdx _ _ = (s.treeDoc w i).elim [] _
      rw [hdoc]
      exact hown.symm

theorem Inv.remove (h : Inv w q s) (hm : s.mirrors i = some m) (hx : m.fragment[index]? = some x) :
    Inv w q ({ s with removed := x.1 :: s.removed }.pushToTree w q i m (m.fragment.eraseIdx index)
      fun t => { s with removed := x.1 :: s.removed }.deleteBlock q i t index) := by
  let s1 : Page κ α := { s with removed := x.1 :: s.removed }
  have hs1 : Stored s1 := h.stored.removed x.1
  have hmirrors1 : ∀ {j : κ} {m : Mirror α}, s1.mirrors j = some m → Mirrors w q s1 j m := fun hm =>
    ⟨(h.mirror hm).bound, (h.mirror hm).fragment⟩
  have hfragment := (h.mirror hm).fragment
  have hdoc1 : { s with removed := x.1 :: s.removed }.treeDoc w i = s.treeDoc w i := rfl
  rw [Page.pushToTree, (h.mirror hm).bound, hdoc1]
  cases hdoc : s.treeDoc w i with
  | none =>
    rw [hfragment, hdoc] at hx
    cases hx
  | some d =>
    obtain rfl := h.stored.treeDoc_eq_zero hdoc
    rw [hdoc, Option.elim_some] at hfragment
    rw [hfragment, shown_getElem?] at hx
    obtain ⟨n, hn, hx⟩ := Option.bind_eq_some_iff.mp hx
    obtain ⟨b, hb, rfl⟩ := Option.map_eq_some_iff.mp hx
    have hlabel : b.label = n := (h.stored.block hb).2.1
    have hstored : Stored (s1.deleteBlock q i 0 index) := hs1.deleteBlock hn (by simp [s1, hlabel])
    have hown : (s1.deleteBlock q i 0 index).shown q i 0 = m.fragment.eraseIdx index := by
      rw [hfragment]
      exact shown_deleteBlock hn
    obtain ⟨htree, hblocks, hmirrors, hinserted⟩ := deleteBlock_frame q i s1 0 index
    have hdoc' : ∀ j, (s1.deleteBlock q i 0 index).treeDoc w j = s.treeDoc w j := fun j => by
      rw [Page.treeDoc, Page.treeDoc, htree]
    refine Inv.setMirror hs1 hmirrors1 hstored ?_ (fun hlog => ?_) hmirrors
      (fun j hj => ⟨hdoc' j, shown_deleteBlock_of_ne hj hn⟩) ⟨?_, ?_⟩
    · rw [hblocks, hinserted]
      exact h.count
    · rw [htree] at hlog
      exact absurd hlog (h.stored.log_ne_nil hdoc)
    · rw [hdoc', hdoc]
    · rw [hdoc', hdoc, Option.elim_some, hown]

omit [DecidableEq κ] in
theorem all_lt {l : List Nat} {k : Nat} (h : (l.all fun n => decide (n < k)) = true) : ∀ n ∈ l, n < k :=
  fun n hn => of_decide_eq_true (List.all_eq_true.mp h n hn)

variable {docs blocks gone : List Nat}

theorem Stored.learn (h : Stored s) (hdocs : ∀ n ∈ docs, n < s.tree.log.length)
    (hblocks : ∀ n ∈ blocks, n < s.blocks.length) (hgone : ∀ n ∈ gone, n ∈ s.deleted) :
    Stored (s.learn i docs blocks gone) := by
  have hgone' : ∀ {j : κ} {n : Nat}, (s.learn i docs blocks gone).gone j n = true → n ∈ s.deleted := by
    intro j n hn
    obtain hn | ⟨-, hn⟩ : s.gone j n = true ∨ j = i ∧ n ∈ gone := by simpa [Page.learn] using hn
    · exact h.gone hn
    · exact hgone n hn
  exact {
    once := h.once.receive docs
    doc := h.doc
    has := fun {j n} hn => by
      obtain hn | ⟨-, hn⟩ : s.tree.known j n = true ∨ j = i ∧ n ∈ docs := by
        simpa [Page.learn, SharedMaps.Doc.receive] using hn
      · exact h.has hn
      · exact hdocs n hn
    bounded := {
      known := fun {j n} hn => by
        obtain hn | ⟨-, hn⟩ : s.known j n = true ∨ j = i ∧ n ∈ blocks := by simpa [Page.learn] using hn
        · exact h.bounded.known hn
        · exact hblocks n hn
      gone := fun hn => (h.deleted (hgone' hn)).1 }
    gone := hgone'
    deleted := h.deleted
    block := h.block }

theorem learn_others (h : Stored s) (h' : Stored (s.learn i docs blocks gone))
    (hj : j ≠ i) : (s.learn i docs blocks gone).treeDoc w j = s.treeDoc w j ∧
      (s.learn i docs blocks gone).shown q j 0 = s.shown q j 0 := by
  constructor
  · rw [h.treeDoc, h'.treeDoc]
    simp [Page.learn, SharedMaps.Doc.receive, hj]
  · exact shown_congr (by simp [Page.items, Page.learn, hj]) (fun _ _ => by simp [Page.learn, hj]) fun _ _ => rfl

theorem Inv.receive {batch : List (ChildEdit α)} (h : Inv w q s)
    (h' : Stored (s.learn i docs blocks gone))
    (hbatch : ∀ d, s.treeDoc w i = some d →
      applyEdits (s.shown q i d) batch = (s.learn i docs blocks gone).shown q i d) :
    Inv w q ((s.learn i docs blocks gone).pullFromTree w q i (docs.any fun n => !(s.tree.known i n)) batch) := by
  have hothers : ∀ j, j ≠ i → _ := fun j hj => learn_others (w := w) (q := q) h.stored h' hj
  -- Where the mirror stays as it is, its member has no element under 'doc' or no mirror.
  have hstays : (∀ m, s.mirrors i = some m → Mirrors w q (s.learn i docs blocks gone) i m) →
      Inv w q (s.learn i docs blocks gone) := fun hi => {
    stored := h'
    count := h.count
    unwritten := h.unwritten
    mirror := fun {j m} hmj => by
      by_cases hj : j = i
      · subst hj
        exact hi m hmj
      · exact (h.mirror hmj).of_same h.stored (hothers j hj).1 (hothers j hj).2 }
  unfold Page.pullFromTree
  split
  · rename_i hm
    exact hstays fun m hmi => absurd (hm.symm.trans hmi) (by simp)
  · rename_i m hm
    split
    · exact Stored.loadFromTree h.stored h.mirror h' h.count h.unwritten rfl hothers
    · rename_i hnew
      -- No write of 'doc' is new.
      have hdoc : (s.learn i docs blocks gone).treeDoc w i = s.treeDoc w i := by
        rw [h.stored.treeDoc, h'.treeDoc]
        have hknown : (s.learn i docs blocks gone).tree.known i 0 = s.tree.known i 0 := by
          by_cases h0 : 0 ∈ docs
          · have hhas : s.tree.known i 0 = true := by simpa using fun hno => hnew (List.any_eq_true.mpr ⟨0, h0, hno⟩)
            simp [Page.learn, SharedMaps.Doc.receive, hhas]
          · simp [Page.learn, SharedMaps.Doc.receive, h0]
        rw [hknown]
      have hmirror := h.mirror hm
      split
      · rename_i hbound
        refine hstays fun m' hm' => ?_
        obtain rfl : m = m' := Option.some.inj (hm.symm.trans hm')
        have hnone : s.treeDoc w i = none := hmirror.bound.symm.trans hbound
        exact ⟨hmirror.bound.trans hdoc.symm, by rw [hmirror.fragment, hdoc, hnone]; rfl⟩
      · rename_i t hbound
        have ht : s.treeDoc w i = some t := hmirror.bound.symm.trans hbound
        refine Inv.setMirror h.stored h.mirror h' h.count h.unwritten rfl hothers ⟨hdoc ▸ ht.symm, ?_⟩
        rw [hdoc, ht, Option.elim_some, ← hbatch t ht, hmirror.fragment, ht, Option.elim_some]

theorem Inv.step [DecidableEq α] {e : Event κ α} (h : Inv w q s) (hclear : Clear w s e)
    (hstep : step w q s e = some s') : Inv w q s' := by
  cases e with
  | attach i =>
    simp only [PageMirror.step] at hstep
    split at hstep
    · cases hstep
      exact Stored.loadFromTree h.stored h.mirror h.stored h.count h.unwritten rfl fun _ _ => ⟨rfl, rfl⟩
    · cases hstep
  | insert i index content =>
    simp only [PageMirror.step] at hstep
    split at hstep
    · cases hstep
    · rename_i m hm
      split at hstep
      · rename_i hindex
        cases hstep
        exact h.insert hm hclear hindex
      · cases hstep
  | remove i index =>
    simp only [PageMirror.step] at hstep
    split at hstep
    · cases hstep
    · rename_i m hm
      split at hstep
      · cases hstep
      · rename_i x hx
        cases hstep
        exact h.remove hm hx
  | receive i docs blocks gone batch =>
    simp only [PageMirror.step] at hstep
    split at hstep
    · rename_i hguard
      cases hstep
      simp only [Bool.and_eq_true] at hguard
      obtain ⟨⟨⟨hdocs, hblocks⟩, hgone⟩, hbatch⟩ := hguard
      have hlearn := h.stored.learn (i := i) (all_lt hdocs) (all_lt hblocks)
        fun n hn => of_decide_eq_true (List.all_eq_true.mp hgone n hn)
      refine h.receive hlearn fun d hd => ?_
      rw [hd] at hbatch
      simpa using hbatch
    · cases hstep

theorem Inv.start (page : Option (κ × List α)) : Inv w q (start w q page) := by
  have hempty : ∀ l : List α, Stored (⟨⟨[], fun _ _ => false⟩, [], [], fun _ _ => false, fun _ _ => false,
      fun _ => none, l, []⟩ : Page κ α) := fun l => {
    once := ⟨fun he => by simp at he, fun he => by simp at he, fun he => by simp at he, fun he => by simp at he,
      fun he => by simp at he⟩
    doc := fun he => by simp at he
    has := fun hn => by cases hn
    bounded := ⟨(fun hn => by cases hn), fun hn => by cases hn⟩
    gone := fun hn => by cases hn
    deleted := fun hn => by cases hn
    block := fun hb => by simp at hb }
  cases page with
  | none => exact ⟨hempty [], rfl, fun _ => rfl, fun hm => by cases hm⟩
  | some page =>
    obtain ⟨i, l⟩ := page
    obtain ⟨hfill, -⟩ := (hempty l).setDoc (w := w) (q := q) (i := i) (l.zipIdx.map Prod.swap) rfl rfl fun x hx => by
      rw [List.mem_zipIdx_iff_getElem?, List.getElem?_map, List.getElem?_zipIdx] at hx
      obtain ⟨y, hy, hswap⟩ := Option.map_eq_some_iff.mp hx
      obtain ⟨c, hc, rfl⟩ := Option.map_eq_some_iff.mp hy
      rw [← hswap]
      exact ⟨Nat.zero_add _, hc⟩
    exact {
      stored := hfill.stored
      count := by
        rw [PageMirror.start, hfill.count, hfill.inserted]
        simp
      unwritten := fun hlog => by
        rw [PageMirror.start, hfill.tree] at hlog
        cases hlog
      mirror := fun hm => by
        rw [PageMirror.start, hfill.mirrors] at hm
        cases hm }

omit [DecidableEq κ] in
theorem Inv.treeDoc_of_exchanged (h : Inv w q s) (hall : Exchanged s) (hm : s.mirrors i = some m) :
    s.treeDoc w i = if s.tree.log.length = 0 then none else some 0 := by
  rw [h.stored.treeDoc]
  by_cases hlog : s.tree.log.length = 0
  · rw [if_pos hlog, if_neg]
    intro hknown
    have hlt := h.stored.has hknown
    omega
  · rw [if_neg hlog, if_pos (hall.docs hm 0 (by omega))]

omit [DecidableEq κ] in
theorem Inv.items_of_exchanged (h : Inv w q s) (hall : Exchanged s) (hm : s.mirrors i = some m) :
    s.items i 0 = List.range s.blocks.length := by
  refine List.filter_eq_self.mpr fun n hn => ?_
  have hlt := List.mem_range.mp hn
  have hparent := (h.stored.block (List.getElem?_eq_getElem hlt)).1
  simp [hall.blocks hm n hlt, List.getElem?_eq_getElem hlt, hparent]

omit [DecidableEq κ] in
theorem Inv.gone_of_exchanged (h : Inv w q s) (hall : Exchanged s) (hm : s.mirrors i = some m) (n : Nat) :
    s.gone i n = decide (n ∈ s.deleted) := by
  by_cases hn : n ∈ s.deleted
  · rw [hall.gone hm n hn, decide_eq_true hn]
  · rw [decide_eq_false hn]
    exact Bool.eq_false_iff.mpr fun hgone => hn (h.stored.gone hgone)

omit [DecidableEq κ] in
theorem Inv.kept (h : Inv w q s) (hall : Exchanged s) : Kept s where
  same := by
    intro i j m m' hm hm'
    have hshown : s.shown q i 0 = s.shown q j 0 := by
      have hchildren : s.children q i 0 = s.children q j 0 := by
        rw [Page.children, Page.children, Page.order, Page.order, h.items_of_exchanged hall hm,
          h.items_of_exchanged hall hm']
        exact List.filter_congr fun n _ => by rw [h.gone_of_exchanged hall hm, h.gone_of_exchanged hall hm']
      rw [Page.shown, Page.shown, hchildren]
    rw [(h.mirror hm).fragment, (h.mirror hm').fragment, h.treeDoc_of_exchanged hall hm,
      h.treeDoc_of_exchanged hall hm']
    split
    · rfl
    · exact hshown
  kept := by
    intro i m n content hm hn hremoved
    have hlt : n < s.blocks.length := by
      rw [h.count]
      exact (List.getElem?_eq_some_iff.mp hn).1
    have hlog : ¬ s.tree.log.length = 0 := fun hzero => by
      rw [h.unwritten (List.length_eq_zero_iff.mp hzero)] at hlt
      cases hlt
    have hb := List.getElem?_eq_getElem hlt
    obtain ⟨hparent, hlabel, hcontent⟩ := h.stored.block hb
    have hchild : n ∈ s.children q i 0 := by
      refine mem_children.mpr ⟨mem_items.mpr ⟨_, hb, hall.blocks hm n hlt, hparent⟩, ?_⟩
      rw [h.gone_of_exchanged hall hm]
      exact decide_eq_false fun hdeleted => hremoved (h.stored.deleted hdeleted).2
    rw [(h.mirror hm).fragment, h.treeDoc_of_exchanged hall hm, if_neg hlog, Option.elim_some]
    refine mem_shown.mpr ⟨n, _, hchild, hb, ?_⟩
    rw [hlabel, Option.some.inj (hcontent.symm.trans hn)]

end Steps

variable [DecidableEq α] {w : LastWriter κ Unit} {q : Sequence}

/-- Where no member begins a page that another one has begun, what the members insert is kept. -/
theorem insertions_kept (page : Option (κ × List α)) {s : Page κ α}
    (h : Run (step w q) (Clear w) (start w q page) s) (hall : Exchanged s) : Kept s :=
  (h.invariant (Inv w q) (Inv.start page) fun _ _ _ hinv hclear hstep => hinv.step hclear hstep).kept hall

section Two

instance (s : Page κ α) (e : Event κ α) : Decidable (Clear w s e) := by
  unfold Clear
  split <;> infer_instance

def hasAll (s : Page κ α) (i : κ) : Bool :=
  (List.range s.tree.log.length).all (s.tree.known i) && (List.range s.blocks.length).all (s.known i) &&
    s.deleted.all (s.gone i)

omit [DecidableEq α] in
theorem exchanged_of_two {s : Page Nat α} (hothers : ∀ k, s.mirrors (k + 2) = none) (h0 : hasAll s 0 = true)
    (h1 : hasAll s 1 = true) : Exchanged s := by
  have hboth : ∀ i m, s.mirrors i = some m → hasAll s i = true := by
    intro i m hm
    match i, hm with
    | 0, _ => exact h0
    | 1, _ => exact h1
    | k + 2, hm => rw [hothers] at hm; cases hm
  simp only [hasAll, Bool.and_eq_true, List.all_eq_true, List.mem_range] at hboth
  exact ⟨fun hm => (hboth _ _ hm).1.1, fun hm => (hboth _ _ hm).1.2, fun hm => (hboth _ _ hm).2⟩

def first : Text := "first".toList
def second : Text := "second".toList
def third : Text := "third".toList

/-- One member has begun the page before the other one opens it. -/
def onePage : List (Event Nat Text) :=
  [.attach 0, .insert 0 0 first, .receive 1 [0] [0] [] [], .attach 1, .insert 0 1 second, .insert 1 0 third,
    .receive 0 [] [2] [] [.insert [(2, third)]], .receive 1 [] [1] [] [.retain 2, .insert [(1, second)]]]

theorem insertions_kept_onePage : ∃ s : Page Nat Text,
    exec (step greatestClient behindLeft) (Clear greatestClient) (start greatestClient behindLeft none) onePage =
        some s ∧
      (s.mirrors 0).map Mirror.fragment = some [(2, third), (0, first), (1, second)] ∧ Kept s :=
  ⟨_, rfl, by decide +kernel, insertions_kept (w := greatestClient) (q := behindLeft) none (run_of_exec onePage _ _ rfl)
    (exchanged_of_two (fun _ => rfl) (by decide +kernel) (by decide +kernel))⟩

/-- Both members begin the page. -/
def twoPages : List (Event Nat Text) :=
  [.attach 0, .attach 1, .insert 0 0 first, .insert 1 0 second, .receive 0 [1] [1] [] [], .receive 1 [0] [0] [] []]

theorem insertion_lost : ¬ ∀ (w : LastWriter Nat Unit) (q : Sequence) (page : Option (Nat × List Text))
    (s : Page Nat Text), Run (step w q) (fun _ _ => True) (start w q page) s → Exchanged s → Kept s := by
  intro h
  have hkept := h greatestClient behindLeft none _ (run_of_exec twoPages _ _ rfl)
    (exchanged_of_two (fun _ => rfl) (by decide +kernel) (by decide +kernel))
  have hmem : (0, first) ∈ [(1, second)] := hkept.kept (i := 0) (m := ⟨[(1, second)], some 1⟩) (by decide +kernel) rfl
    (by decide +kernel)
  revert hmem
  decide +kernel

end Two
end Savoire.PageMirror
