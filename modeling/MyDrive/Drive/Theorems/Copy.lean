import Mathlib.Data.List.Pairwise
import MyDrive.Drive.Copy
import MyDrive.Drive.Theorems.Requests

open Forest

namespace MyDrive.Drive

variable {v v' w : View} {owner id x y : Id} {job : CopyJob} {copied : Nat}
  {children jobs : List CopyJob} {fresh : List Id}

-- An active entry in a folder, as a copy lists them.
def Child (v : View) (owner x y : Id) : Prop :=
  ∃ f, v.entries.lookup y = some f ∧ f.parentId = some x ∧ f.ownerId = owner ∧ f.deletedAt = none

structure Extends (v v' : View) : Prop where
  lookup {x e} : v.entries.lookup x = some e → v'.entries.lookup x = some e
  tree : Tree v.entries → Tree v'.entries

theorem Extends.refl : Extends v v :=
  ⟨id, id⟩

theorem Extends.trans (h : Extends v w) (h' : Extends w v') : Extends v v' :=
  ⟨h'.lookup ∘ h.lookup, h'.tree ∘ h.tree⟩

theorem Child.extend (h : Child v owner x y) (e : Extends v v') : Child v' owner x y := by
  obtain ⟨f, hf, h⟩ := h
  exact ⟨f, e.lookup hf, h⟩

theorem mem_copyChildren_iff {kind : Kind} {j : CopyJob} :
    j ∈ copyChildren v owner job kind id ↔ kind = .folder ∧ ∃ y, Child v owner job.source y ∧
      j = { source := y, parent := some id, rename := false, depth := job.depth + 1 } := by
  cases kind
  case file   => simp [copyChildren]
  case folder =>
    simp only [copyChildren, List.mem_map, Prod.exists, mem_childrenOf_iff, Bool.and_eq_true,
      decide_eq_true_eq, Option.isNone_iff_eq_none, true_and, Child]
    constructor
    case mp =>
      rintro ⟨y, f, ⟨hf, hp, ho, hd⟩, rfl⟩
      exact ⟨y, ⟨f, hf, hp, ho, hd⟩, rfl⟩
    case mpr =>
      rintro ⟨y, ⟨f, hf, hp, ho, hd⟩, rfl⟩
      exact ⟨y, f, ⟨hf, hp, ho, hd⟩, rfl⟩

theorem copyChildren_nodup {kind : Kind} :
    ((copyChildren v owner job kind id).map CopyJob.source).Nodup := by
  cases kind
  case file   => exact List.nodup_nil
  case folder =>
    simp only [copyChildren, List.map_map]
    exact (v.entries.nodup.sublist (List.filter_sublist.map _))

namespace Volume

variable {s₀ s s' : Volume} {d : Option Id}

-- A place that the loop writes to: the destination, or a folder that it has made.
def Outside (s₀ : Volume) (d p : Option Id) : Prop :=
  p = d ∨ ∃ q, p = some q ∧ s₀.view.entries.lookup q = none

structure Filed (s : Volume) : Prop where
  file {x c} : s.contents.lookup x = some c → ∃ e, s.view.entries.lookup x = some e ∧ e.kind = .file

-- The volume `s₀` after some turns of the loop.
structure Grown (s₀ s : Volume) (d : Option Id) : Prop where
  lookup {x e} : s₀.view.entries.lookup x = some e → s.view.entries.lookup x = some e
  contents {x e} : s₀.view.entries.lookup x = some e → s.contents.lookup x = s₀.contents.lookup x
  added {z f} : s₀.view.entries.lookup z = none → s.view.entries.lookup z = some f →
    Outside s₀ d f.parentId
  filed : Filed s

-- An entry to copy, which the destination is not below.
structure Sourced (s₀ : Volume) (d : Option Id) (x : Id) : Prop where
  found : ∃ e, s₀.view.entries.lookup x = some e
  apart {a} : d = some a → ¬Ancestor (parentOf s₀.view.entries) a x

theorem Sourced.ne (h : Sourced s₀ d x) : some x ≠ d :=
  fun he => h.apart he.symm (.refl x)

theorem Grown.start (filed : Filed s) : Grown s s d where
  lookup hx   := hx
  contents _  := rfl
  added hn hz := by cases hn.symm.trans hz
  filed       := filed

theorem Grown.child (g : Grown s₀ s d) (hx : Sourced s₀ d x) (hy : Child s.view owner x y) :
    Child s₀.view owner x y := by
  obtain ⟨f, hf, hp, ho, hd⟩ := hy
  cases h₀ : s₀.view.entries.lookup y
  case some e =>
    cases (g.lookup h₀).symm.trans hf
    exact ⟨_, h₀, hp, ho, hd⟩
  case none   =>
    obtain ⟨e, hx'⟩ := hx.found
    obtain h | ⟨q, hq, hn⟩ := g.added h₀ hf
    case inl => exact absurd (hp.symm.trans h) hx.ne
    case inr =>
      cases hp.symm.trans hq
      cases hx'.symm.trans hn

theorem Sourced.child (h : Sourced s₀ d x) (hy : Child s₀.view owner x y) : Sourced s₀ d y := by
  obtain ⟨f, hf, hp, -, -⟩ := hy
  refine ⟨⟨f, hf⟩, fun {a} hd ha => ?_⟩
  exact h.apart hd (ha.tail ((parentOf_eq hf).trans hp))

theorem lookup_copyContent {source : Id} {e : Entry}
    (hs : s.view.entries.lookup source = some e) :
    (s.copyContent source id).lookup x =
      if x = id ∧ e.kind = .file ∧ (s.contents.lookup source).isSome then s.contents.lookup source
      else s.contents.lookup x := by
  unfold copyContent
  rw [hs]
  cases hc : s.contents.lookup source
  case none   => simp
  case some c => by_cases hk : e.kind = .file <;> simp [hk]

-- The entry `m` is a copy of `x`.
def Copied (s₀ s' : Volume) (owner x m : Id) : Prop :=
  ∃ e f, s₀.view.entries.lookup x = some e ∧ s'.view.entries.lookup m = some f ∧
    e.ownerId = owner ∧ e.deletedAt = none ∧ f.ownerId = owner ∧ f.deletedAt = none ∧
    f.kind = e.kind ∧ s'.contents.lookup m = s₀.contents.lookup x

-- The entry `y` is in the folder `x` as `z` is in the folder `m`, under the same name.
def Placed (s₀ s' : Volume) (x m y z : Id) : Prop :=
  ∃ e f, s₀.view.entries.lookup y = some e ∧ s'.view.entries.lookup z = some f ∧
    e.parentId = some x ∧ f.parentId = some m ∧ f.name = e.name

-- A pairing of the active part of the source with the copy that the job has made of it.
structure Paired (s₀ s' : Volume) (owner : Id) (job : CopyJob) (pairs : List (Id × Id)) : Prop where
  keys : (pairs.map Prod.fst).Nodup
  root : ∃ n f rest, pairs = (job.source, n) :: rest ∧ s'.view.entries.lookup n = some f ∧
    f.parentId = job.parent ∧ (job.rename = false →
      ∃ e, s₀.view.entries.lookup job.source = some e ∧ f.name = e.name)
  copied {x m} : (x, m) ∈ pairs → Copied s₀ s' owner x m
  below {x m} : (x, m) ∈ pairs → Ancestor (parentOf s₀.view.entries) x job.source
  inner {y z} : (y, z) ∈ pairs.tail → ∃ x m, (x, m) ∈ pairs ∧ Placed s₀ s' x m y z
  complete {x m y} : (x, m) ∈ pairs → Child s₀.view owner x y →
    ∃ z, (y, z) ∈ pairs ∧ Placed s₀ s' x m y z

-- What the turns from `s` to `s'` leave alone.
structure Kept (s s' : Volume) : Prop where
  lookup {x f} : s.view.entries.lookup x = some f → s'.view.entries.lookup x = some f
  contents {x f} : s.view.entries.lookup x = some f → s'.contents.lookup x = s.contents.lookup x

theorem Kept.trans {t : Volume} (h : Kept s t) (h' : Kept t s') : Kept s s' where
  lookup      := h'.lookup ∘ h.lookup
  contents hx := (h'.contents (h.lookup hx)).trans (h.contents hx)

-- The subtrees of two children of one folder are disjoint.
theorem disjoint_children (tree : Tree s₀.view.entries) {c c' : Id} (hc : Child s₀.view owner x c)
    (hc' : Child s₀.view owner x c') (hn : c ≠ c')
    (h : Ancestor (parentOf s₀.view.entries) y c) : ¬Ancestor (parentOf s₀.view.entries) y c' := by
  have apart {a b} (ha : Child s₀.view owner x a) (hb : Child s₀.view owner x b) (hn : a ≠ b) :
      ¬Ancestor (parentOf s₀.view.entries) a b := by
    intro hab
    obtain ⟨f, hf, hp, -, -⟩ := ha
    obtain ⟨g, hg, hq, -, -⟩ := hb
    obtain rfl | ⟨p, hp', hab⟩ := hab.cases_head
    case inl => exact hn rfl
    case inr =>
      cases hp'.symm.trans ((parentOf_eq hf).trans hp)
      exact not_ancestor_of_parent tree.wf ((parentOf_eq hg).trans hq) hab
  intro h'
  obtain h | h := h.total h'
  case inl => exact apart hc hc' hn h
  case inr => exact apart hc' hc hn.symm h

theorem mem_flatten_of_forall₂ {P : CopyJob → List (Id × Id) → Prop} {js : List CopyJob}
    {pairs : List (List (Id × Id))} {q : Id × Id} (h : List.Forall₂ P js pairs)
    (hq : q ∈ pairs.flatten) : ∃ j ∈ js, ∃ ps ∈ pairs, P j ps ∧ q ∈ ps := by
  induction h
  case nil => cases hq
  case cons j ps js pairs hp _ ih =>
    rw [List.flatten_cons, List.mem_append] at hq
    obtain hq | hq := hq
    case inl => exact ⟨j, .head _, ps, .head _, hp, hq⟩
    case inr =>
      obtain ⟨j, hj, ps, hps, h⟩ := ih hq
      exact ⟨j, .tail _ hj, ps, .tail _ hps, h⟩

theorem forall₂_append_left {P : CopyJob → List (Id × Id) → Prop} {js ks : List CopyJob}
    {pairs : List (List (Id × Id))} (h : List.Forall₂ P (js ++ ks) pairs) :
    ∃ ps qs, pairs = ps ++ qs ∧ List.Forall₂ P js ps ∧ List.Forall₂ P ks qs := by
  induction js generalizing pairs
  case nil => exact ⟨[], pairs, rfl, .nil, h⟩
  case cons j js ih =>
    cases h
    case cons p pairs hp h =>
      obtain ⟨ps, qs, rfl, hps, hqs⟩ := ih h
      exact ⟨p :: ps, qs, rfl, .cons hp hps, hqs⟩

theorem exists_of_forall₂ {P : CopyJob → List (Id × Id) → Prop} {js : List CopyJob}
    {pairs : List (List (Id × Id))} (h : List.Forall₂ P js pairs) (hj : job ∈ js) :
    ∃ ps ∈ pairs, P job ps := by
  induction h
  case nil => cases hj
  case cons j ps js pairs hp _ ih =>
    cases hj
    case head => exact ⟨ps, .head _, hp⟩
    case tail hj =>
      obtain ⟨ps, hps, h⟩ := ih hj
      exact ⟨ps, .tail _ hps, h⟩

theorem Paired.mem_root {pairs : List (Id × Id)} (h : Paired s₀ s' owner job pairs) :
    ∃ n f, (job.source, n) ∈ pairs ∧ s'.view.entries.lookup n = some f ∧ f.parentId = job.parent ∧
      (job.rename = false →
        ∃ e, s₀.view.entries.lookup job.source = some e ∧ f.name = e.name) := by
  obtain ⟨n, f, rest, rfl, hf⟩ := h.root
  exact ⟨n, f, .head _, hf⟩

-- The children of one folder have disjoint pairings.
theorem keys_flatten (tree : Tree s₀.view.entries) {pairs : List (List (Id × Id))}
    (hc : ∀ j ∈ children, Child s₀.view owner x j.source)
    (distinct : (children.map CopyJob.source).Nodup)
    (h : List.Forall₂ (Paired s₀ s' owner) children pairs) :
    (pairs.flatten.map Prod.fst).Nodup := by
  induction h
  case nil => exact List.nodup_nil
  case cons j ps js pairs hp hps ih =>
    rw [List.map_cons, List.nodup_cons] at distinct
    rw [List.flatten_cons, List.map_append]
    refine hp.keys.append (ih (fun k hk => hc k (.tail _ hk)) distinct.right) fun y hy hy' => ?_
    obtain ⟨⟨y₁, m⟩, hm, he⟩ := List.mem_map.mp hy
    cases he
    obtain ⟨⟨y₂, m'⟩, hm', he⟩ := List.mem_map.mp hy'
    cases he
    obtain ⟨k, hk, ps', -, hp', hm'⟩ := mem_flatten_of_forall₂ hps hm'
    have hn : j.source ≠ k.source := fun he => distinct.left (he ▸ List.mem_map_of_mem hk)
    exact disjoint_children tree (hc j (.head _)) (hc k (.tail _ hk)) hn (hp.below hm)
      (hp'.below hm')

theorem Grown.extends (g : Grown s₀ s d) (hy : Child s₀.view owner x y) :
    Child s.view owner x y := by
  obtain ⟨f, hf, h⟩ := hy
  exact ⟨f, g.lookup hf, h⟩

-- What the loop makes from its jobs: a copy of the source of each of them and nothing else.
structure Made (s₀ s s' : Volume) (owner : Id) (d : Option Id) (copied : Nat) (jobs : List CopyJob)
    (pairs : List (List (Id × Id))) : Prop where
  paired : List.Forall₂ (Paired s₀ s' owner) jobs pairs
  kept   : Kept s s'
  grown  : Grown s₀ s' d
  count  : copied + pairs.flatten.length ≤ maxCopyEntries
  values : (pairs.flatten.map Prod.snd).Nodup
  fresh {z} : z ∈ pairs.flatten.map Prod.snd → s.view.entries.lookup z = none
  only {z f} : s.view.entries.lookup z = none → s'.view.entries.lookup z = some f →
    z ∈ pairs.flatten.map Prod.snd

theorem Made.nil (g : Grown s₀ s d) (hc : copied ≤ maxCopyEntries) :
    Made s₀ s s owner d copied [] [] where
  paired      := .nil
  kept        := ⟨fun hx => hx, fun _ => rfl⟩
  grown       := g
  count       := hc
  values      := List.nodup_nil
  fresh hz    := by cases hz
  only hz hf  := by cases hz.symm.trans hf

-- The pairs map the active part of the tree below `a` onto the tree below the copy of `a`.
structure Isomorphic (s₀ s' : Volume) (owner : Id) (parent : Option Id) (a : Id)
    (pairs : List (Id × Id)) : Prop where
  keys   : (pairs.map Prod.fst).Nodup
  values : (pairs.map Prod.snd).Nodup
  source {x : Id} : x ∈ pairs.map Prod.fst ↔ Relation.ReflTransGen (Child s₀.view owner) a x
  target : ∃ n f, (a, n) ∈ pairs ∧ s'.view.entries.lookup n = some f ∧ f.parentId = parent ∧
    ∀ z, z ∈ pairs.map Prod.snd ↔ Ancestor (parentOf s'.view.entries) z n
  copied {x m : Id} : (x, m) ∈ pairs → Copied s₀ s' owner x m
  inside {x m y z : Id} : (x, m) ∈ pairs → (y, z) ∈ pairs →
    (Child s₀.view owner x y ↔ Child s'.view owner m z)
  names {y z : Id} : (y, z) ∈ pairs → y ≠ a → ∃ e f, s₀.view.entries.lookup y = some e ∧
    s'.view.entries.lookup z = some f ∧ f.name = e.name

theorem Paired.cases {pairs : List (Id × Id)} (h : Paired s₀ s' owner job pairs)
    (hy : (x, y) ∈ pairs) :
    (x = job.source ∧ ∃ f, s'.view.entries.lookup y = some f ∧ f.parentId = job.parent) ∨
      ∃ u m, (u, m) ∈ pairs ∧ Placed s₀ s' u m x y := by
  obtain ⟨n, f, rest, rfl, hf, hp, -⟩ := h.root
  cases hy
  case head    => exact .inl ⟨rfl, f, hf, hp⟩
  case tail hy => exact .inr (h.inner hy)

theorem Copied.child {m z : Id} (h : Copied s₀ s' owner y z) (hp : Placed s₀ s' x m y z) :
    Child s₀.view owner x y ∧ Child s'.view owner m z := by
  obtain ⟨e, f, he, hf, ho, hd, ho', hd', -⟩ := h
  obtain ⟨e', f', he', hf', hx, hm, -⟩ := hp
  cases he.symm.trans he'
  cases hf.symm.trans hf'
  exact ⟨⟨e, he, hx, ho, hd⟩, ⟨f, hf, hm, ho', hd'⟩⟩

theorem Paired.source_iff (tree : Tree s₀.view.entries) {pairs : List (Id × Id)}
    (h : Paired s₀ s' owner job pairs) :
    x ∈ pairs.map Prod.fst ↔ Relation.ReflTransGen (Child s₀.view owner) job.source x := by
  constructor
  case mp =>
    intro hx
    obtain ⟨⟨x', m⟩, hm, rfl⟩ := List.mem_map.mp hx
    clear hx
    induction x' using tree.wf.induction generalizing m
    case _ x' ih =>
      obtain ⟨rfl, -⟩ | ⟨u, k, hk, hp⟩ := h.cases hm
      case inl => exact .refl
      case inr =>
        have hc := ((h.copied hm).child hp).left
        have hu : parentOf s₀.view.entries x' = some u := by
          obtain ⟨e, he, hu, -, -⟩ := hc
          exact (parentOf_eq he).trans hu
        exact (ih u hu k hk).tail hc
  case mpr =>
    intro path
    induction path
    case refl =>
      obtain ⟨n, -, hn, -⟩ := h.mem_root
      exact List.mem_map_of_mem hn
    case tail _ hc ih =>
      obtain ⟨⟨u, m⟩, hm, rfl⟩ := List.mem_map.mp ih
      obtain ⟨z, hz, -⟩ := h.complete hm hc
      exact List.mem_map_of_mem hz

theorem eq_of_mem_of_fst {pairs : List (Id × Id)} {m z : Id} (h : (pairs.map Prod.fst).Nodup)
    (hm : (x, m) ∈ pairs) (hz : (x, z) ∈ pairs) : m = z := by
  cases List.inj_on_of_nodup_map h hm hz rfl
  rfl

theorem eq_of_mem_of_snd {pairs : List (Id × Id)} {m : Id} (h : (pairs.map Prod.snd).Nodup)
    (hx : (x, m) ∈ pairs) (hy : (y, m) ∈ pairs) : x = y := by
  cases List.inj_on_of_nodup_map h hx hy rfl
  rfl

-- What an id that two of the pairings map to says about them.
theorem eq_of_mem_of_values {pairs : List (List (Id × Id))} {ps qs : List (Id × Id)} {m : Id}
    (h : (pairs.flatten.map Prod.snd).Nodup) (hp : ps ∈ pairs) (hq : qs ∈ pairs)
    (hx : (x, m) ∈ ps) (hy : (y, m) ∈ qs) : ps = qs := by
  by_contra hne
  rw [List.map_flatten, List.nodup_flatten, List.pairwise_map] at h
  have symm : Std.Symm fun a b : List (Id × Id) =>
    List.Disjoint (a.map Prod.snd) (b.map Prod.snd) := ⟨fun _ _ h _ ha hb => h hb ha⟩
  have disjoint := h.right.forall hp hq hne
  exact disjoint (List.mem_map_of_mem hx) (List.mem_map.mpr ⟨(y, m), hy, rfl⟩)

namespace Made

variable {pairs : List (List (Id × Id))} {ps : List (Id × Id)} {m z : Id}

section

variable (made : Made s₀ s₀ s' owner d copied jobs pairs)

include made

theorem unused (hp : ps ∈ pairs) (hm : (x, m) ∈ ps) : s₀.view.entries.lookup m = none :=
  made.fresh (List.mem_map.mpr ⟨(x, m), List.mem_flatten.mpr ⟨ps, hp, hm⟩, rfl⟩)

theorem values_of_mem (hp : ps ∈ pairs) : (ps.map Prod.snd).Nodup := by
  have := made.values
  rw [List.map_flatten, List.nodup_flatten] at this
  exact this.left _ (List.mem_map_of_mem hp)

-- A folder that has a new entry in it is the destination, or the copy of the folder of its source.
theorem placed_of_new {f : Entry} (tree : Tree s₀.view.entries) (hj : ∀ j ∈ jobs, j.parent = d)
    (hd : ∀ p, d = some p → ∃ e, s₀.view.entries.lookup p = some e) (hp : ps ∈ pairs)
    (hm : (x, m) ∈ ps) (hz : s'.view.entries.lookup z = some f) (hf : f.parentId = some m) :
    ∃ y, (y, z) ∈ ps ∧ Placed s₀ s' x m y z := by
  have unused := made.unused hp hm
  have hn : s₀.view.entries.lookup z = none := by
    cases hl : s₀.view.entries.lookup z
    case none   => rfl
    case some e =>
      cases (made.grown.lookup hl).symm.trans hz
      obtain ⟨g, hg, -⟩ := tree.parent hl hf
      cases hg.symm.trans unused
  obtain ⟨⟨y, z'⟩, hy, he⟩ := List.mem_map.mp (made.only hn hz)
  cases he
  obtain ⟨j, hj', qs, hq, paired, hy⟩ := mem_flatten_of_forall₂ made.paired hy
  obtain ⟨-, g, hg, hgp⟩ | ⟨u, k, hk, hpl⟩ := paired.cases hy
  case inl =>
    cases hz.symm.trans hg
    obtain ⟨e, he⟩ := hd m ((hj j hj').symm.trans (hgp.symm.trans hf))
    cases he.symm.trans unused
  case inr =>
    obtain ⟨e, g, he, hg, hu, hgp, hname⟩ := hpl
    cases hz.symm.trans hg
    cases hgp.symm.trans hf
    cases eq_of_mem_of_values made.values hp hq hm hk
    cases eq_of_mem_of_snd (made.values_of_mem hp) hm hk
    exact ⟨y, hy, e, f, he, hz, hu, hf, hname⟩

theorem target_iff (tree : Tree s₀.view.entries) (hj : ∀ j ∈ jobs, j.parent = d)
    (hd : ∀ p, d = some p → ∃ e, s₀.view.entries.lookup p = some e) (hp : ps ∈ pairs)
    (paired : Paired s₀ s' owner job ps) (hm : (job.source, m) ∈ ps) :
    z ∈ ps.map Prod.snd ↔ Ancestor (parentOf s'.view.entries) z m := by
  constructor
  case mp =>
    intro hz
    obtain ⟨⟨y, z'⟩, hy, rfl⟩ := List.mem_map.mp hz
    clear hz
    induction y using tree.wf.induction generalizing z'
    case _ y ih =>
      obtain ⟨rfl, -⟩ | ⟨u, k, hk, e, f, he, hf, hu, hfk, -⟩ := paired.cases hy
      case inl => exact eq_of_mem_of_fst paired.keys hy hm ▸ .refl _
      case inr =>
        exact .head ((parentOf_eq hf).trans hfk) (ih u ((parentOf_eq he).trans hu) k hk)
  case mpr =>
    intro h
    induction h using Relation.ReflTransGen.head_induction_on
    case refl => exact List.mem_map_of_mem hm
    case head z k hz _ ih =>
      obtain ⟨⟨u, k'⟩, hk, rfl⟩ := List.mem_map.mp ih
      obtain ⟨f, hf, hfk⟩ := lookup_of_parentOf hz
      obtain ⟨y, hy, -⟩ := made.placed_of_new tree hj hd hp hk hf hfk
      exact List.mem_map_of_mem hy

theorem isomorphic (tree : Tree s₀.view.entries) (hj : ∀ j ∈ jobs, j.parent = d)
    (hd : ∀ p, d = some p → ∃ e, s₀.view.entries.lookup p = some e) (hp : ps ∈ pairs)
    (hjob : job ∈ jobs) (paired : Paired s₀ s' owner job ps) :
    Isomorphic s₀ s' owner d job.source ps where
  keys   := paired.keys
  values := made.values_of_mem hp
  source := paired.source_iff tree
  copied := paired.copied
  target := by
    obtain ⟨n, f, hn, hf, hfp, -⟩ := paired.mem_root
    exact ⟨n, f, hn, hf, hfp.trans (hj job hjob), fun z => made.target_iff tree hj hd hp paired hn⟩
  inside {x m y z} hx hy := by
    constructor
    case mp =>
      intro hc
      obtain ⟨z', hz, hpl⟩ := paired.complete hx hc
      cases eq_of_mem_of_fst paired.keys hy hz
      exact ((paired.copied hy).child hpl).right
    case mpr =>
      intro hc
      obtain ⟨f, hf, hfm, -, -⟩ := hc
      obtain ⟨y', hy', hpl⟩ := made.placed_of_new tree hj hd hp hx hf hfm
      cases eq_of_mem_of_snd (made.values_of_mem hp) hy hy'
      exact ((paired.copied hy).child hpl).left
  names {y z} hy hne := by
    obtain ⟨rfl, -⟩ | ⟨u, k, -, e, f, he, hf, -, -, hname⟩ := paired.cases hy
    case inl => exact absurd rfl hne
    case inr => exact ⟨e, f, he, hf, hname⟩

end

end Made

theorem forall₂_isomorphic {ids : List Id} {pairs : List (List (Id × Id))}
    (h : List.Forall₂ (Paired s₀ s' owner)
      (ids.map fun id => { source := id, parent := d, rename := true, depth := 0 }) pairs)
    (iso : ∀ a ∈ ids, ∀ ps ∈ pairs,
      Paired s₀ s' owner { source := a, parent := d, rename := true, depth := 0 } ps →
      Isomorphic s₀ s' owner d a ps) :
    List.Forall₂ (Isomorphic s₀ s' owner d) ids pairs := by
  rw [List.forall₂_map_left_iff] at h
  induction h
  case nil => exact .nil
  case cons a ps ids pairs hp _ ih =>
    refine .cons (iso a (.head _) ps (.head _) hp) (ih fun b hb qs hq => ?_)
    exact iso b (.tail _ hb) qs (.tail _ hq)

end Volume

variable [Collation]

-- What one turn of the loop inserts: the entry `new`, as a copy of `e`.
structure Inserted (v v' : View) (owner id : Id) (job : CopyJob) (e new : Entry) : Prop where
  found     : v.entries.lookup job.source = some e
  owned     : e.ownerId = owner
  active    : e.deletedAt = none
  fresh     : v.entries.lookup id = none
  entries x : v'.entries.lookup x = if x = id then some new else v.entries.lookup x
  unique    : violatesUnique v.entries id new = false
  owner     : new.ownerId = owner
  parent    : new.parentId = job.parent
  kind      : new.kind = e.kind
  name      : job.rename = false → new.name = e.name
  kept      : new.deletedAt = none
  tree      : Tree v.entries → Tree v'.entries

theorem copyOneEntry_ok (h : copyOneEntry v owner job id copied = .ok (v', children)) :
    job.depth ≤ 40 ∧ copied < maxCopyEntries ∧ ∃ e new, Inserted v v' owner id job e new ∧
      children = copyChildren v' owner job e.kind id := by
  simp only [copyOneEntry, Except.ite_throw_eq_ok_iff, Except.bind_eq_ok_iff] at h
  obtain ⟨depth, count, e, he, name, hn, w, hw, h⟩ := h
  cases h
  refine ⟨by omega, by omega, e, newEntry owner job.parent e.kind name, ?_, rfl⟩
  have unique := insertEntry_unique hw
  obtain ⟨fresh, valid, rfl⟩ := insertEntry_ok hw
  unfold copySource at he
  split at he
  case h_1        => cases he
  case h_2 f hf =>
    obtain ⟨found, owned, active⟩ := activeRow_eq_some hf
    split at he
    case isTrue  => cases he
    case isFalse =>
      cases he
      refine ⟨found, owned, active, fresh, ?entries, unique, rfl, rfl, rfl, ?name, rfl, ?tree⟩
      case tree    =>
        intro tree
        rw [sync_entries]
        exact tree_setEntry_guarded tree valid (by simp [fresh])
      case entries => intro x; rw [sync_entries, View.lookup_setEntry]
      case name    =>
        intro hr
        simp only [copyName, hr] at hn
        cases hn
        rfl

theorem Inserted.extends {e new : Entry} (h : Inserted v v' owner id job e new) : Extends v v' where
  lookup {x f} hx := by
    have : x ≠ id := by
      rintro rfl
      cases hx.symm.trans h.fresh
    rw [h.entries, if_neg this, hx]
  tree := h.tree

theorem Inserted.child {e new : Entry} {p : Id} (h : Inserted v v' owner id job e new)
    (hp : job.parent = some p) : Child v' owner p id :=
  ⟨new, by simp [h.entries], h.parent.trans hp, h.owner, h.kept⟩

theorem copyEntries_cons (h : copyEntries owner v copied fresh (job :: jobs) = .ok v') :
    ∃ id rest w children, fresh = id :: rest ∧
      copyOneEntry v owner job id copied = .ok (w, children) ∧
      copyEntries owner w (copied + 1) rest (children ++ jobs) = .ok v' := by
  cases fresh
  case nil          => cases h
  case cons id rest =>
    obtain ⟨⟨w, children⟩, hc, h⟩ := Except.bind_eq_ok_iff.mp h
    exact ⟨id, rest, w, children, rfl, hc, h⟩

-- The loop comes to every job that it still has to do.
theorem copyEntries_reaches (h : copyEntries owner v copied fresh jobs = .ok v') (hj : job ∈ jobs) :
    ∃ w copied' fresh' rest, Extends v w ∧
      copyEntries owner w copied' fresh' (job :: rest) = .ok v' := by
  induction fresh generalizing v copied jobs
  case nil =>
    cases jobs
    case nil  => cases hj
    case cons => cases h
  case cons id fresh ih =>
    cases jobs
    case nil           => cases hj
    case cons job' jobs =>
      cases hj
      case head => exact ⟨v, copied, id :: fresh, jobs, .refl, h⟩
      case tail hj =>
        obtain ⟨_, _, w, children, he, hc, h⟩ := copyEntries_cons h
        cases he
        obtain ⟨-, -, e, new, ins, -⟩ := copyOneEntry_ok hc
        obtain ⟨w', copied', fresh', rest, ext, h⟩ := ih h (List.mem_append_right _ hj)
        exact ⟨w', copied', fresh', rest, ins.extends.trans ext, h⟩

-- A copy into a folder below the source.
def Descends (v : View) (owner : Id) (job : CopyJob) : Prop :=
  ∃ q, job.parent = some q ∧ Relation.ReflTransGen (Child v owner) job.source q

-- A job whose source has the entry `y` in it is followed by a job for that entry.
theorem child_job {e new : Entry} (h : Inserted v w owner id job e new) (tree : Tree v.entries)
    (hy : Child w owner job.source y) :
    { source := y, parent := some id, rename := false, depth := job.depth + 1 } ∈
      copyChildren w owner job e.kind id := by
  refine mem_copyChildren_iff.mpr ⟨?_, y, hy, rfl⟩
  obtain ⟨f, hf, hp, -, -⟩ := hy
  obtain ⟨g, hg, hk, -⟩ := (h.tree tree).parent hf hp
  cases hg.symm.trans (h.extends.lookup h.found)
  exact hk

-- From a job, the loop comes to one for every entry below its source.
theorem copyEntries_descends {u : View} {d p : Id} (ext : Extends v u) (tree : Tree u.entries)
    (path : Relation.ReflTransGen (Child v owner) job.source d) (hp : job.parent = some p)
    (h : copyEntries owner u copied fresh (job :: jobs) = .ok v') :
    ∃ w copied' fresh' job' rest z, Extends u w ∧
      copyEntries owner w copied' fresh' (job' :: rest) = .ok v' ∧ job'.source = d ∧
      job'.parent = some z ∧ Relation.ReflTransGen (Child w owner) p z ∧ job.depth ≤ job'.depth := by
  generalize hs : job.source = s at path
  induction path using Relation.ReflTransGen.head_induction_on generalizing u job copied fresh jobs p
  case refl => exact ⟨u, copied, fresh, job, jobs, p, .refl, h, hs, hp, .refl, le_rfl⟩
  case head a b hb _ ih =>
    subst hs
    obtain ⟨n, rest, w, children, -, hc, h⟩ := copyEntries_cons h
    obtain ⟨-, -, e, new, ins, rfl⟩ := copyOneEntry_ok hc
    have next := child_job ins tree ((hb.extend ext).extend ins.extends)
    obtain ⟨w', copied', fresh', rest', ext', h⟩ :=
      copyEntries_reaches h (List.mem_append_left _ next)
    obtain ⟨w'', copied'', fresh'', job'', rest'', z, ext'', h, hs, hz, path, hd⟩ :=
      ih (ext.trans (ins.extends.trans ext')) (ext'.tree (ins.tree tree)) rfl h rfl
    refine ⟨w'', copied'', fresh'', job'', rest'', z, ins.extends.trans (ext'.trans ext''), h, hs, hz,
      .head ?_ path, Nat.le_of_succ_le hd⟩
    exact ((ins.child hp).extend ext').extend ext''

-- It comes back to a copy into a folder below the source, one level further down.
theorem Descends.again (tree : Tree v.entries) (hj : Descends v owner job)
    (h : copyEntries owner v copied fresh (job :: jobs) = .ok v') :
    ∃ w copied' fresh' job' rest, Extends v w ∧ Descends w owner job' ∧
      copyEntries owner w copied' fresh' (job' :: rest) = .ok v' ∧ job.depth < job'.depth := by
  obtain ⟨q, hq, path⟩ := hj
  obtain ⟨w, _, _, k, _, z, ext, h, rfl, hz, below, hd⟩ := copyEntries_descends .refl tree path hq h
  obtain ⟨n, rest, w', children, -, hc, h⟩ := copyEntries_cons h
  obtain ⟨-, -, e, new, ins, rfl⟩ := copyOneEntry_ok hc
  -- The copy of the target is below the target itself by now.
  have below : Relation.TransGen (Child w' owner) k.source n :=
    .tail' (below.lift id fun _ _ hc => hc.extend ins.extends) (ins.child hz)
  obtain ⟨c, hc, below⟩ := Relation.TransGen.head'_iff.mp below
  have next := child_job ins (ext.tree tree) hc
  obtain ⟨w'', copied'', fresh'', rest'', ext'', h⟩ :=
    copyEntries_reaches h (List.mem_append_left _ next)
  refine ⟨w'', copied'', fresh'', _, rest'', ext.trans (ins.extends.trans ext''), ?_, h, Nat.lt_succ_of_le hd⟩
  exact ⟨n, rfl, below.lift id fun _ _ hc => hc.extend ext''⟩

theorem Descends.fails (tree : Tree v.entries) (hj : Descends v owner job) :
    copyEntries owner v copied fresh (job :: jobs) ≠ .ok v' := by
  intro h
  induction hn : 41 - job.depth using Nat.strong_induction_on generalizing v job copied fresh jobs
  case h n ih =>
    have depth : job.depth ≤ 40 := by
      obtain ⟨_, _, _, _, -, hc, -⟩ := copyEntries_cons h
      exact (copyOneEntry_ok hc).left
    obtain ⟨w, _, _, job', _, ext, hj, h, hd⟩ := hj.again tree h
    exact ih (41 - job'.depth) (by omega) (ext.tree tree) hj h rfl

namespace Volume

variable {s₀ s s' : Volume} {d : Option Id}

theorem Filed.copyContent {e new : Entry} {w : View} (f : Filed s)
    (ins : Inserted s.view w owner id job e new) :
    Filed { view := w, contents := s.copyContent job.source id } where
  file {x c} hx := by
    rw [lookup_copyContent ins.found] at hx
    split at hx
    case isTrue h =>
      obtain ⟨rfl, hk, -⟩ := h
      exact ⟨new, by simp [ins.entries], ins.kind.trans hk⟩
    case isFalse =>
      obtain ⟨e, he, hk⟩ := f.file hx
      exact ⟨e, ins.extends.lookup he, hk⟩

theorem Grown.insert {e new : Entry} {w : View} (g : Grown s₀ s d)
    (ins : Inserted s.view w owner id job e new) (hid : s₀.view.entries.lookup id = none)
    (hp : Outside s₀ d job.parent) :
    Grown s₀ { view := w, contents := s.copyContent job.source id } d where
  lookup h := ins.extends.lookup (g.lookup h)
  contents {x e} h := by
    have : x ≠ id := by
      rintro rfl
      cases h.symm.trans hid
    simp [lookup_copyContent ins.found, this, g.contents h]
  added {z f} h hz := by
    rw [ins.entries] at hz
    split at hz
    case isTrue  => cases hz; exact ins.parent ▸ hp
    case isFalse => exact g.added h hz
  filed := g.filed.copyContent ins

theorem Kept.insert {e new : Entry} {w : View} (ins : Inserted s.view w owner id job e new) :
    Kept s { view := w, contents := s.copyContent job.source id } where
  lookup   := ins.extends.lookup
  contents {x f} h := by
    have : x ≠ id := by
      rintro rfl
      cases h.symm.trans ins.fresh
    simp [lookup_copyContent ins.found, this]

theorem copyEntries_cons' (h : s.copyEntries owner copied fresh (job :: jobs) = .ok s') :
    ∃ id rest w children, fresh = id :: rest ∧
      copyOneEntry s.view owner job id copied = .ok (w, children) ∧
      copyEntries owner { view := w, contents := s.copyContent job.source id } (copied + 1) rest
        (children ++ jobs) = .ok s' := by
  cases fresh
  case nil          => cases h
  case cons id rest =>
    obtain ⟨⟨w, children⟩, hc, h⟩ := Except.bind_eq_ok_iff.mp h
    exact ⟨id, rest, w, children, rfl, hc, h⟩

-- The pairing of a job, from those of the jobs for the entries in its source.
theorem Paired.cons (tree : Tree s₀.view.entries) {e new : Entry} {w : View} {n : Id}
    {pairs : List (List (Id × Id))} (ins : Inserted s.view w owner n job e new)
    (hs : s₀.view.entries.lookup job.source = some e) (kept : s'.view.entries.lookup n = some new)
    (content : s'.contents.lookup n = s₀.contents.lookup job.source)
    (hc : ∀ j ∈ children, j.parent = some n ∧ j.rename = false ∧ Child s₀.view owner job.source j.source)
    (all : ∀ y, Child s₀.view owner job.source y → ∃ j ∈ children, j.source = y)
    (distinct : (children.map CopyJob.source).Nodup)
    (h : List.Forall₂ (Paired s₀ s' owner) children pairs) :
    Paired s₀ s' owner job ((job.source, n) :: pairs.flatten) := by
  have placed {j ps z g} (hj : j ∈ children) (hp : Paired s₀ s' owner j ps)
      (hz : (j.source, z) ∈ ps) (hg : s'.view.entries.lookup z = some g)
      (hgp : g.parentId = j.parent)
      (hgn : j.rename = false → ∃ f, s₀.view.entries.lookup j.source = some f ∧ g.name = f.name) :
      Placed s₀ s' job.source n j.source z := by
    obtain ⟨hparent, hrename, f, hf, hfp, -, -⟩ := hc j hj
    obtain ⟨f', hf', hname⟩ := hgn hrename
    cases hf.symm.trans hf'
    exact ⟨f, g, hf, hg, hfp, hgp.trans hparent, hname⟩
  refine ⟨?keys, ?root, ?copied, ?below, ?inner, ?complete⟩
  case keys =>
    refine List.nodup_cons.mpr ⟨fun hm => ?_, keys_flatten tree (fun j hj => (hc j hj).2.2) distinct h⟩
    obtain ⟨⟨y, m⟩, hm, he⟩ := List.mem_map.mp hm
    cases he
    obtain ⟨j, hj, ps, -, hp, hm⟩ := mem_flatten_of_forall₂ h hm
    obtain ⟨-, -, f, hf, hfp, -, -⟩ := hc j hj
    exact not_ancestor_of_parent tree.wf ((parentOf_eq hf).trans hfp) (hp.below hm)
  case root =>
    refine ⟨n, new, pairs.flatten, rfl, kept, ins.parent, fun hr => ⟨e, hs, ins.name hr⟩⟩
  case copied =>
    intro x m hx
    cases hx
    case head =>
      exact ⟨e, new, hs, kept, ins.owned, ins.active, ins.owner, ins.kept, ins.kind, content⟩
    case tail hx =>
      obtain ⟨j, -, ps, -, hp, hx⟩ := mem_flatten_of_forall₂ h hx
      exact hp.copied hx
  case below =>
    intro x m hx
    cases hx
    case head => exact .refl _
    case tail hx =>
      obtain ⟨j, hj, ps, -, hp, hx⟩ := mem_flatten_of_forall₂ h hx
      obtain ⟨-, -, f, hf, hfp, -, -⟩ := hc j hj
      exact (hp.below hx).tail ((parentOf_eq hf).trans hfp)
  case inner =>
    intro y z hy
    obtain ⟨j, hj, ps, hps, hp, hy⟩ := mem_flatten_of_forall₂ h hy
    obtain ⟨m, g, rest, rfl, hg, hgp, hgn⟩ := hp.root
    cases hy
    case head => exact ⟨job.source, n, .head _, placed hj hp (.head _) hg hgp hgn⟩
    case tail hy =>
      obtain ⟨x, m', hx, hpl⟩ := hp.inner hy
      exact ⟨x, m', .tail _ (List.mem_flatten.mpr ⟨_, hps, hx⟩), hpl⟩
  case complete =>
    intro x m y hx hy
    cases hx
    case head =>
      obtain ⟨j, hj, rfl⟩ := all y hy
      obtain ⟨ps, hps, hp⟩ := exists_of_forall₂ h hj
      obtain ⟨z, g, hz, hg, hgp, hgn⟩ := hp.mem_root
      exact ⟨z, .tail _ (List.mem_flatten.mpr ⟨_, hps, hz⟩), placed hj hp hz hg hgp hgn⟩
    case tail hx =>
      obtain ⟨j, -, ps, hps, hp, hx⟩ := mem_flatten_of_forall₂ h hx
      obtain ⟨z, hz, hpl⟩ := hp.complete hx hy
      exact ⟨z, .tail _ (List.mem_flatten.mpr ⟨_, hps, hz⟩), hpl⟩

-- One turn for a job, and then the jobs for the entries in its source before the others.
theorem Made.cons (tree : Tree s₀.view.entries) {e new : Entry} {w : View}
    {pairs : List (List (Id × Id))} (g : Grown s₀ s d) (hx : Sourced s₀ d job.source)
    (ins : Inserted s.view w owner id job e new)
    (grown : Grown s₀ { view := w, contents := s.copyContent job.source id } d)
    (h : Made s₀ { view := w, contents := s.copyContent job.source id } s' owner d (copied + 1)
      (copyChildren w owner job e.kind id ++ jobs) pairs) :
    ∃ pairs, Made s₀ s s' owner d copied (job :: jobs) pairs := by
  obtain ⟨inner, rest, rfl, hi, hr⟩ := forall₂_append_left h.paired
  have hs : s₀.view.entries.lookup job.source = some e := by
    obtain ⟨e', he'⟩ := hx.found
    cases (g.lookup he').symm.trans ins.found
    exact he'
  have hn : s'.view.entries.lookup id = some new := h.kept.lookup (by simp [ins.entries])
  refine ⟨((job.source, id) :: inner.flatten) :: rest, .cons ?job hr, ?kept, h.grown, ?count, ?values,
    ?fresh, ?only⟩
  case job =>
    refine Paired.cons tree ins hs hn ?content ?children ?all copyChildren_nodup hi
    case content =>
      have hc : w.entries.lookup id = some new := by simp [ins.entries]
      rw [h.kept.contents hc, lookup_copyContent ins.found, ← g.contents hs]
      cases hc : s.contents.lookup job.source
      case some c =>
        obtain ⟨f, hf, hk⟩ := g.filed.file hc
        cases hf.symm.trans ins.found
        simp [hk]
      case none =>
        cases hi : s.contents.lookup id
        case none   => simp
        case some c =>
          obtain ⟨f, hf, -⟩ := g.filed.file hi
          cases hf.symm.trans ins.fresh
    case children =>
      intro j hj
      obtain ⟨-, y, hy, rfl⟩ := mem_copyChildren_iff.mp hj
      exact ⟨rfl, rfl, grown.child hx hy⟩
    case all =>
      intro y hy
      have hk : e.kind = .folder := by
        obtain ⟨f, hf, hp, -, -⟩ := hy
        obtain ⟨e', he', hk, -⟩ := tree.parent hf hp
        cases he'.symm.trans hs
        exact hk
      exact ⟨_, mem_copyChildren_iff.mpr ⟨hk, y, grown.extends hy, rfl⟩, rfl⟩
  case kept  => exact (Kept.insert ins).trans h.kept
  case count =>
    have := h.count
    simp only [List.flatten_append, List.length_append, List.flatten_cons, List.length_cons] at this ⊢
    omega
  case values =>
    have hv := h.values
    simp only [List.flatten_append, List.flatten_cons, List.map_append, List.map_cons,
      List.cons_append, List.nodup_cons] at hv ⊢
    refine ⟨fun hm => ?_, hv⟩
    have : w.entries.lookup id = none := h.fresh (by simpa using hm)
    simp [ins.entries] at this
  case fresh =>
    intro z hz
    simp only [List.flatten_cons, List.map_append, List.map_cons, List.cons_append, List.mem_cons] at hz
    obtain rfl | hz := hz
    case inl => exact ins.fresh
    case inr =>
      have : w.entries.lookup z = none := h.fresh (by simpa using hz)
      rw [ins.entries] at this
      split at this
      case isTrue  => cases this
      case isFalse => exact this
  case only =>
    intro z f hz hf
    by_cases he : z = id
    case pos => simp [he]
    case neg =>
      have : z ∈ (inner ++ rest).flatten.map Prod.snd := h.only (by simp [ins.entries, he, hz]) hf
      simp only [List.flatten_append, List.flatten_cons, List.map_append, List.map_cons,
        List.cons_append, List.mem_cons] at this ⊢
      exact .inr this

theorem copyEntries_made (tree : Tree s₀.view.entries) (g : Grown s₀ s d)
    (hj : ∀ j ∈ jobs, Outside s₀ d j.parent ∧ Sourced s₀ d j.source) (hc : copied ≤ maxCopyEntries)
    (h : s.copyEntries owner copied fresh jobs = .ok s') :
    ∃ pairs, Made s₀ s s' owner d copied jobs pairs := by
  induction fresh generalizing s copied jobs
  case nil =>
    cases jobs
    case cons => cases h
    case nil  => cases h; exact ⟨[], .nil g hc⟩
  case cons id fresh ih =>
    cases jobs
    case nil => cases h; exact ⟨[], .nil g hc⟩
    case cons job jobs =>
      obtain ⟨_, _, w, children, he, hw, h⟩ := copyEntries_cons' h
      cases he
      obtain ⟨-, count, e, new, ins, rfl⟩ := copyOneEntry_ok hw
      obtain ⟨out, hx⟩ := hj job (.head _)
      have unused : s₀.view.entries.lookup id = none := by
        cases hl : s₀.view.entries.lookup id
        case none   => rfl
        case some f => cases (g.lookup hl).symm.trans ins.fresh
      have grown := g.insert ins unused out
      have next : ∀ j ∈ copyChildren w owner job e.kind id ++ jobs,
          Outside s₀ d j.parent ∧ Sourced s₀ d j.source := by
        intro j hj'
        rw [List.mem_append] at hj'
        obtain hj' | hj' := hj'
        case inr => exact hj j (.tail _ hj')
        case inl =>
          obtain ⟨-, y, hy, rfl⟩ := mem_copyChildren_iff.mp hj'
          exact ⟨.inr ⟨id, rfl, unused⟩, hx.child (grown.child hx hy)⟩
      obtain ⟨pairs, made⟩ := ih grown next count h
      exact made.cons tree g hx ins grown

theorem copyEntries_view (h : s.copyEntries owner copied fresh jobs = .ok s') :
    Drive.copyEntries owner s.view copied fresh jobs = .ok s'.view := by
  induction fresh generalizing s copied jobs
  case nil =>
    cases jobs
    case nil  => cases h; rfl
    case cons => cases h
  case cons id fresh ih =>
    cases jobs
    case nil           => cases h; rfl
    case cons job jobs =>
      obtain ⟨_, _, w, children, he, hw, h⟩ := copyEntries_cons' h
      cases he
      exact Except.bind_eq_ok_iff.mpr ⟨(w, children), hw, ih h⟩

-- A turn that finds 500 entries copied fails, so the ids after the 501st are never used.
theorem copyEntries_append (more : List Id) (hc : copied ≤ maxCopyEntries)
    (h : maxCopyEntries < copied + fresh.length) :
    s.copyEntries owner copied (fresh ++ more) jobs = s.copyEntries owner copied fresh jobs := by
  induction fresh generalizing s copied jobs
  case nil => simp at h; omega
  case cons id fresh ih =>
    cases jobs
    case nil           => rfl
    case cons job jobs =>
      simp only [List.cons_append, copyEntries]
      cases hw : copyOneEntry s.view owner job id copied
      case error => rfl
      case ok r  =>
        obtain ⟨-, count, -⟩ := copyOneEntry_ok hw
        exact ih count (by simp only [List.length_cons] at h; omega)

theorem copyEntries_found (h : s.copyEntries owner copied fresh jobs = .ok s') (hj : job ∈ jobs)
    (hf : job.source ∉ fresh) : ∃ e, s.view.entries.lookup job.source = some e := by
  induction fresh generalizing s copied jobs
  case nil =>
    cases jobs
    case nil  => cases hj
    case cons => cases h
  case cons id fresh ih =>
    cases jobs
    case nil            => cases hj
    case cons job' jobs =>
      obtain ⟨_, _, w, children, he, hw, h⟩ := copyEntries_cons' h
      cases he
      obtain ⟨-, -, e, new, ins, -⟩ := copyOneEntry_ok hw
      cases hj
      case head    => exact ⟨e, ins.found⟩
      case tail hj =>
        rw [List.mem_cons, not_or] at hf
        obtain ⟨f, hw⟩ := ih h (List.mem_append_right _ hj) hf.right
        rw [ins.entries, if_neg hf.left] at hw
        exact ⟨f, hw⟩

-- The new entries have names of their own in their folders.
def Apart (s₀ s : Volume) : Prop :=
  ∀ ⦃x y e f⦄, s₀.view.entries.lookup x = none → s.view.entries.lookup x = some e →
    s.view.entries.lookup y = some f → x ≠ y → e.ownerId = f.ownerId → e.parentId = f.parentId →
    e.deletedAt = none → f.deletedAt = none → Collation.lower e.name ≠ Collation.lower f.name

theorem ne_of_not_violatesUnique {entries : Table Id Entry} {e new : Entry}
    (h : violatesUnique entries id new = false) (hd : new.deletedAt = none)
    (he : entries.lookup x = some e) (hx : x ≠ id) (ho : e.ownerId = new.ownerId)
    (hp : e.parentId = new.parentId) (ha : e.deletedAt = none) :
    Collation.lower e.name ≠ Collation.lower new.name := by
  intro hn
  have : violatesUnique entries id new = true := by
    simp only [violatesUnique, hd, Option.isNone_none, Bool.true_and, Table.any_iff]
    exact ⟨x, e, he, by simp [hx, ho, hp, ha, hn]⟩
  simp [this] at h

theorem Apart.insert {e new : Entry} {w : View} (a : Apart s₀ s)
    (ins : Inserted s.view w owner id job e new) :
    Apart s₀ { view := w, contents := s.copyContent job.source id } := by
  intro x y f g hx hf hg hne ho hp hfd hgd
  rw [ins.entries] at hf hg
  split at hf
  case isTrue h =>
    cases hf
    rw [if_neg (h ▸ hne.symm)] at hg
    exact (ne_of_not_violatesUnique ins.unique ins.kept hg (h ▸ hne.symm) ho.symm hp.symm hgd).symm
  case isFalse h =>
    split at hg
    case isTrue h' =>
      cases hg
      exact ne_of_not_violatesUnique ins.unique ins.kept hf h ho hp hfd
    case isFalse h' => exact a hx hf hg hne ho hp hfd hgd

theorem copyEntries_apart (a : Apart s₀ s) (h : s.copyEntries owner copied fresh jobs = .ok s') :
    Apart s₀ s' := by
  induction fresh generalizing s copied jobs
  case nil =>
    cases jobs
    case nil  => cases h; exact a
    case cons => cases h
  case cons id fresh ih =>
    cases jobs
    case nil           => cases h; exact a
    case cons job jobs =>
      obtain ⟨_, _, w, children, he, hw, h⟩ := copyEntries_cons' h
      cases he
      obtain ⟨-, -, e, new, ins, -⟩ := copyOneEntry_ok hw
      exact ih (a.insert ins) h

-- A destination below one of the sources.
theorem not_below_source (tree : Tree s.view.entries) {p a : Id} {ids : List Id}
    (hp : ensureActiveParent s.view owner (some p) = .ok ()) (ha : a ∈ ids)
    (h : s.copyEntries owner 0 fresh
      (ids.map fun id => { source := id, parent := some p, rename := true, depth := 0 }) = .ok s') :
    ¬Ancestor (parentOf s.view.entries) p a := by
  intro below
  obtain ⟨e, he, ho, -, active⟩ := (ensureActiveEntry_iff tree.linked).mp hp
  have path : Relation.ReflTransGen (Child s.view owner) a p := by
    clear hp h
    induction below using Relation.ReflTransGen.head_induction_on generalizing e
    case refl => exact .refl
    case head p q hq _ ih =>
      rw [parentOf_eq he] at hq
      obtain ⟨f, hf, -, hfo⟩ := tree.parent he hq
      have hd : e.deletedAt = none := by
        simpa [trashed_iff he] using active p (.refl _)
      refine (ih f hf (hfo.trans ho) fun y hy => ?_).tail ⟨e, he, hq, ho, hd⟩
      exact active y (.head ((parentOf_eq he).trans hq) hy)
  obtain ⟨w, _, _, _, ext, h⟩ := copyEntries_reaches (copyEntries_view h) (List.mem_map_of_mem ha)
  exact Descends.fails (ext.tree tree) ⟨p, rfl, path.lift id fun _ _ hc => hc.extend ext⟩ h

theorem batchCopy_ok {ids : List Id} {parent : Option Id}
    (h : s.batchCopy owner ids parent fresh = .ok s') :
    ids.Nodup ∧ ensureActiveParent s.view owner parent = .ok () ∧
      s.copyEntries owner 0 fresh
        (ids.map fun id => { source := id, parent, rename := true, depth := 0 }) = .ok s' := by
  simp only [batchCopy, Except.ite_throw_eq_ok_iff, Except.bind_eq_ok_iff] at h
  obtain ⟨hn, u, hp, -, h⟩ := h
  refine ⟨?_, hp, h⟩
  simp only [Bool.or_eq_true, not_or] at hn
  simpa using hn.right

-- The ids after the 501st are not used: the loop stops before it makes more than 500 entries.
theorem batch_copy (tree : Tree s.view.entries) (filed : Filed s) (owner : Id) (parent : Option Id)
    {ids fresh : List Id} (new : ∀ a ∈ ids, a ∉ fresh) :
    (∀ more, maxCopyEntries < fresh.length →
      s.batchCopy owner ids parent (fresh ++ more) = s.batchCopy owner ids parent fresh) ∧
    (∀ s', s.batchCopy owner ids parent fresh = .ok s' → Apart s s' ∧ Kept s s' ∧
      ∃ pairs, List.Forall₂ (Isomorphic s s' owner parent) ids pairs ∧
        pairs.flatten.length ≤ maxCopyEntries ∧ (pairs.flatten.map Prod.snd).Nodup ∧
        ∀ z, z ∈ pairs.flatten.map Prod.snd ↔
          s.view.entries.lookup z = none ∧ ∃ f, s'.view.entries.lookup z = some f) ∧
    (∀ e, s.batchCopy owner ids parent fresh = .error e → s.serveCopy owner ids parent fresh = s) ∧
    (∀ p a, parent = some p → a ∈ ids → Ancestor (parentOf s.view.entries) p a →
      ∀ s', s.batchCopy owner ids parent fresh ≠ .ok s') := by
  have below : ∀ p a, parent = some p → a ∈ ids → Ancestor (parentOf s.view.entries) p a →
      ∀ s', s.batchCopy owner ids parent fresh ≠ .ok s' := by
    rintro p a rfl ha hpa s' h
    obtain ⟨-, hp, h⟩ := batchCopy_ok h
    exact not_below_source tree hp ha h hpa
  refine ⟨?stops, ?copies, ?fails, below⟩
  case stops =>
    intro more hf
    simp only [batchCopy, copyEntries_append more (Nat.zero_le _) (by simpa using hf)]
  case copies =>
    intro s' h
    have apart {a} (ha : a ∈ ids) {p} (hp : parent = some p) :
        ¬Ancestor (parentOf s.view.entries) p a :=
      fun hpa => below p a hp ha hpa s' h
    obtain ⟨-, hp, h⟩ := batchCopy_ok h
    have hd p (he : parent = some p) : ∃ e, s.view.entries.lookup p = some e := by
      cases he
      obtain ⟨e, he, -⟩ := (ensureActiveEntry_iff tree.linked).mp hp
      exact ⟨e, he⟩
    have sourced j (hj : j ∈ ids.map fun id => CopyJob.mk id parent true 0) :
        Outside s parent j.parent ∧ Sourced s parent j.source := by
      have found := copyEntries_found h hj
      obtain ⟨a, ha, rfl⟩ := List.mem_map.mp hj
      exact ⟨.inl rfl, found (new a ha), apart ha⟩
    have unmoved j (hj : j ∈ ids.map fun id => CopyJob.mk id parent true 0) : j.parent = parent := by
      obtain ⟨a, -, rfl⟩ := List.mem_map.mp hj
      rfl
    obtain ⟨pairs, made⟩ := copyEntries_made tree (.start filed) sourced (Nat.zero_le _) h
    refine ⟨copyEntries_apart (fun x y e f hx he => by cases hx.symm.trans he) h, made.kept, pairs,
      ?isomorphic, by simpa using made.count, made.values, fun z => ⟨fun hz => ?old, ?only⟩⟩
    case isomorphic =>
      refine forall₂_isomorphic made.paired fun a ha ps hps paired => ?_
      exact made.isomorphic tree unmoved hd hps (List.mem_map_of_mem ha) paired
    case old =>
      refine ⟨made.fresh hz, ?_⟩
      obtain ⟨⟨y, z'⟩, hy, rfl⟩ := List.mem_map.mp hz
      obtain ⟨j, -, ps, -, paired, hy⟩ := mem_flatten_of_forall₂ made.paired hy
      obtain ⟨e, f, -, hf, -⟩ := paired.copied hy
      exact ⟨f, hf⟩
    case only =>
      rintro ⟨hn, f, hf⟩
      exact made.only hn hf
  case fails =>
    intro e h
    simp [serveCopy, h]

end Volume
end MyDrive.Drive

namespace MyDrive.Drive.Volume

-- The file 3 is in the folder 2, and that in the folder 1.
def tripVolume : Volume where
  view := { base := {
    entries := photosInTrip.set 3 { ownerId := 7, parentId := some 2, kind := .file, name := "map.png" }
    index   := .empty } }
  contents := Table.empty.set 3 { objectId := 30, size := 5 }

theorem tripVolume_tree : Tree tripVolume.view.entries := by
  refine photosInTrip_tree.set (x := 3) (fun _ => Table.lookup_set) (by rintro _ ⟨⟩) fun p hp => ?_
  cases hp
  refine ⟨fun ha => ?_, _, rfl, rfl, rfl⟩
  obtain h | ⟨q, hq, ha⟩ := ha.cases_head
  case inl => cases h
  case inr => cases hq; cases ha.eq_of_root rfl

theorem tripVolume_filed : Filed tripVolume where
  file {x c} h := by
    simp only [tripVolume, Table.lookup_set] at h
    split at h
    case isTrue hx => subst hx; exact ⟨_, rfl, rfl⟩
    case isFalse   => cases h

theorem batch_copy_trip :
    let _ := Collation.binary
    (∃ s', tripVolume.batchCopy 7 [1] none [11, 12, 13] = .ok s' ∧
      ∃ pairs, List.Forall₂ (Isomorphic tripVolume s' 7 none) [1] pairs) ∧
    ∀ s', tripVolume.batchCopy 7 [1] (some 2) [11, 12, 13] ≠ .ok s' := by
  intro _
  have new : ∀ a ∈ [1], a ∉ [11, 12, 13] := by decide
  obtain ⟨-, copies, -, -⟩ := batch_copy tripVolume_tree tripVolume_filed 7 none new
  obtain ⟨-, -, -, below⟩ := batch_copy tripVolume_tree tripVolume_filed 7 (some 2) new
  refine ⟨?_, below 2 1 rfl (.head _) (.head rfl (.refl 1))⟩
  cases h : tripVolume.batchCopy 7 [1] none [11, 12, 13]
  case error e =>
    have : (tripVolume.batchCopy 7 [1] none [11, 12, 13]).isOk = true := by decide +kernel
    simp [h, Except.isOk, Except.toBool] at this
  case ok s' =>
    obtain ⟨-, -, pairs, iso, -⟩ := copies s' h
    exact ⟨s', rfl, pairs, iso⟩

end MyDrive.Drive.Volume
