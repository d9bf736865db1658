import ConfigOverlay.Demo.Config
import ConfigOverlay.Proofs.Defaulted
import ConfigOverlay.Proofs.Removal
import ConfigOverlay.Samples

/-!
# Strict sections

A section overlooks the keys it does not declare, and so does every section in it for the keys
below it (`Section.overlooks`). Strict binding refuses a tree with overlooked keys and names their
paths in the order of the tree.

What is overlooked never matters to binding: removing such a key changes neither the layer nor the
fault (`bindLayer_removeAt`). So a tree without its overlooked keys binds strictly to what the
whole tree binds to otherwise.

Sections are *shallow* here: their values are leaves, below which no key stands, and the sections
in them hold only values, so that nothing is overlooked inside a section given as an array.
-/

namespace ConfigOverlay.Schema

open Outcome

/-! ## Overlooked keys -/

def Section.settings : Section → List Setting
  | .mk _ settings => settings

/-- The declared keys. -/
def Section.names (sec : Section) : List String := sec.settings.map Setting.name

/-- Whether a path leads to a key that its section does not declare. What stands below a value does
not count. -/
def Section.overlooks : Section → KeyPath → Bool
  | _, [] => false
  | .mk _ settings, k :: path =>
    match settings.find? fun s => k = s.name with
    | none => path.isEmpty
    | some (.value _ _ _) => false
    | some (.nested _ sec) => sec.overlooks path

/-- Whether a path below a setting leads to such a key. -/
def Setting.overlooks : Setting → KeyPath → Bool
  | .value _ _ _, _ => false
  | .nested _ sec, path => sec.overlooks path

/-- The setting is a value that is a leaf. -/
def Setting.isLeaf : Setting → Bool
  | .value _ shape _ => shape.isLeaf
  | .nested _ _ => false

/-- All settings are leaves. -/
def Section.isFlat (sec : Section) : Bool := sec.settings.all Setting.isLeaf

/-- The setting is a leaf or a flat section. -/
def Setting.isShallow : Setting → Bool
  | .value _ shape _ => shape.isLeaf
  | .nested _ sec => sec.isFlat

/-- Settings of different names, each of them a leaf or a flat section. -/
structure Section.Shallow (sec : Section) : Prop where
  nodup : sec.names.Nodup
  isShallow : ∀ s ∈ sec.settings, s.isShallow = true

variable {type : String} {settings : List Setting} {sec : Section} {k : String} {path : KeyPath}

theorem overlooks_cons :
    (Section.mk type settings).overlooks (k :: path) =
      match settings.find? fun s => k = s.name with
      | none => path.isEmpty
      | some s => s.overlooks path := by
  rw [Section.overlooks]
  cases settings.find? fun s => k = s.name with
  | none => rfl
  | some s => cases s <;> rfl

theorem Setting.overlooks_nil (s : Setting) : s.overlooks [] = false := by
  cases s with
  | value => rfl
  | nested name sec => rw [Setting.overlooks, Section.overlooks]

theorem ne_nil_of_overlooks (h : sec.overlooks path = true) : path ≠ [] := by
  rintro rfl
  rw [Section.overlooks] at h
  cases h

theorem overlooks_singleton : sec.overlooks [k] = true ↔ k ∉ sec.names := by
  obtain ⟨type, settings⟩ := sec
  have hnames : k ∉ (Section.mk type settings).names ↔
      settings.find? (fun s => k = s.name) = none := by
    rw [Section.names, Section.settings, List.find?_eq_none, List.mem_map]
    simp [eq_comm]
  rw [hnames, overlooks_cons]
  cases h : settings.find? fun s => k = s.name with
  | none => simp
  | some s => simp [s.overlooks_nil]

theorem overlooks_cons_iff (hnodup : sec.names.Nodup) (hpath : path ≠ []) :
    sec.overlooks (k :: path) = true ↔
      ∃ sub, .nested k sub ∈ sec.settings ∧ sub.overlooks path = true := by
  obtain ⟨type, settings⟩ := sec
  rw [overlooks_cons]
  constructor
  · intro h
    cases hfind : settings.find? fun s => k = s.name with
    | none =>
      rw [hfind] at h
      exact absurd (List.isEmpty_iff.1 h) hpath
    | some s =>
      rw [hfind] at h
      have hname : k = s.name := by simpa using List.find?_some hfind
      have hs := List.mem_of_find?_eq_some hfind
      cases s with
      | value => cases h
      | nested name sub =>
        subst hname
        exact ⟨sub, hs, h⟩
  · rintro ⟨sub, hsub, h⟩
    have hfind : settings.find? (fun s => k = s.name) = some (.nested k sub) :=
      find?_name hnodup hsub
    rw [hfind]
    exact h

theorem exists_key_of_overlooks (hflat : sec.isFlat = true) (h : sec.overlooks path = true) :
    ∃ k, path = [k] := by
  obtain ⟨type, settings⟩ := sec
  cases path with
  | nil => exact absurd rfl (ne_nil_of_overlooks h)
  | cons k path =>
    rw [overlooks_cons] at h
    cases hfind : settings.find? fun s => k = s.name with
    | none =>
      rw [hfind] at h
      exact ⟨k, by rw [List.isEmpty_iff.1 h]⟩
    | some s =>
      rw [hfind] at h
      have hleaf := List.all_eq_true.1 hflat s (List.mem_of_find?_eq_some hfind)
      cases s with
      | value => cases h
      | nested => cases hleaf

/-! ## What is reported -/

/-- What a section reports about an object is what it overlooks, if each of its settings reports
what it overlooks. -/
theorem unknownKeys_object
    (h : ∀ s ∈ settings, ∀ t, s.unknownKeys t = t.keyPaths.filter s.overlooks)
    (fs : Fields Tree) :
    (Section.mk type settings).unknownKeys (.object fs) =
      (Tree.object fs).keyPaths.filter (Section.mk type settings).overlooks := by
  rw [Section.unknownKeys.eq_def]
  dsimp only
  rw [Tree.keyPaths_object, List.filter_flatMap]
  refine List.flatMap_congr fun f _ => ?_
  rw [settingUnknownKeys_eq, Tree.fieldKeyPaths, List.filter_cons, List.filter_map]
  cases hfind : settings.find? fun s => f.1 = s.name with
  | none =>
    have hbelow : ∀ path ∈ f.2.keyPaths,
        (Section.mk type settings).overlooks (f.1 :: path) = false := fun path hpath => by
      rw [overlooks_cons, hfind]
      simpa using Tree.ne_nil_of_mem_keyPaths hpath
    have hkey : (Section.mk type settings).overlooks [f.1] = true := by
      rw [overlooks_cons, hfind]
      rfl
    rw [if_pos hkey, List.filter_eq_nil_iff.2 fun path hpath => by simp [hbelow path hpath]]
    rfl
  | some s =>
    have hbelow : ∀ path, (Section.mk type settings).overlooks (f.1 :: path) = s.overlooks path :=
      fun path => by rw [overlooks_cons, hfind]
    rw [hbelow, s.overlooks_nil, Option.map_some, h s (List.mem_of_find?_eq_some hfind)]
    simp [Function.comp_def, hbelow]

theorem unknownKeys_of_isLeaf {s : Setting} (h : s.isLeaf = true) (t : Tree) :
    s.unknownKeys t = t.keyPaths.filter s.overlooks := by
  cases s with
  | nested => cases h
  | value name shape presence =>
    rw [Setting.unknownKeys, optionalUnknownKeys_leaf h, eq_comm, List.filter_eq_nil_iff]
    exact fun path _ => Bool.false_ne_true

theorem settingsUnknownKeys_of_isLeaf (h : ∀ s ∈ settings, s.isLeaf = true) (index : Nat)
    (xs : List Tree) : settingsUnknownKeys index settings xs = [] := by
  induction settings generalizing index xs with
  | nil => rfl
  | cons s settings ih =>
    rw [List.forall_mem_cons] at h
    cases s with
    | nested => cases h.1
    | value name shape presence =>
      cases xs with
      | nil => rfl
      | cons x xs =>
        rw [settingsUnknownKeys.eq_def]
        dsimp only
        rw [ih h.2, List.append_nil, optionalUnknownKeys_leaf h.1, List.map_nil]

theorem unknownKeys_of_isFlat (h : sec.isFlat = true) (t : Tree) :
    sec.unknownKeys t = t.keyPaths.filter sec.overlooks := by
  obtain ⟨type, settings⟩ := sec
  have hleaf : ∀ s ∈ settings, s.isLeaf = true := List.all_eq_true.1 h
  cases t with
  | object fs =>
    exact unknownKeys_object (fun s hs => unknownKeys_of_isLeaf (hleaf s hs)) fs
  | array xs =>
    rw [Section.unknownKeys.eq_def]
    exact settingsUnknownKeys_of_isLeaf hleaf 0 xs
  | _ => rfl

/-- **What is reported is what is overlooked**, in the order of the tree. -/
theorem Section.Shallow.unknownKeys_eq (h : sec.Shallow) (fs : Fields Tree) :
    sec.unknownKeys (.object fs) = (Tree.object fs).keyPaths.filter sec.overlooks := by
  obtain ⟨type, settings⟩ := sec
  refine unknownKeys_object (fun s hs t => ?_) fs
  have hs := h.isShallow s hs
  cases s with
  | value name shape presence =>
    exact unknownKeys_of_isLeaf (s := .value name shape presence) hs t
  | nested name sub => exact unknownKeys_of_isFlat hs t

/-! ## What is overlooked does not matter -/

theorem filterMapM_erase {ε β : Type} {f : String × Tree → Except ε (Option β)}
    (h : ∀ x, f (k, x) = .ok none) (fs : Fields Tree) :
    (Fields.erase k fs).filterMapM f = fs.filterMapM f := by
  induction fs with
  | nil => rfl
  | cons g fs ih =>
    rw [Fields.erase] at ih ⊢
    by_cases hg : g.1 = k
    · subst hg
      rw [List.filter_cons_of_neg (by simp), ih, List.filterMapM_cons, h g.2]
      rfl
    · rw [List.filter_cons_of_pos (by simpa using hg), List.filterMapM_cons, ih,
        List.filterMapM_cons]

theorem filterMapM_set {ε β : Type} {f : String × Tree → Except ε (Option β)} {x y : Tree}
    {fs : Fields Tree} (hk : Fields.get? k fs = some x) (h : f (k, y) = f (k, x)) :
    (Fields.set k y fs).filterMapM f = fs.filterMapM f := by
  induction fs with
  | nil => cases hk
  | cons g fs ih =>
    obtain ⟨l, z⟩ := g
    rw [Fields.get?_cons] at hk
    rw [Fields.set]
    split_ifs at hk ⊢ with hl
    · subst hl
      cases hk
      rw [List.filterMapM_cons, List.filterMapM_cons, h]
    · rw [List.filterMapM_cons, List.filterMapM_cons, ih hk]

/-- **Removing what is overlooked changes neither the layer nor the fault.** -/
theorem bindLayer_removeAt (h : sec.overlooks path = true) (t : Tree) :
    sec.bindLayer (t.removeAt path) = sec.bindLayer t := by
  induction path generalizing sec t with
  | nil => exact absurd rfl (ne_nil_of_overlooks h)
  | cons k path ih =>
    obtain ⟨type, settings⟩ := sec
    rw [overlooks_cons] at h
    cases t with
    | object fs =>
      cases path with
      | nil =>
        -- The path ends here, so no setting declares its key.
        cases hfind : settings.find? fun s => k = s.name with
        | some s => simp [hfind, s.overlooks_nil] at h
        | none =>
          rw [Tree.removeAt_singleton, Section.bindLayer.eq_def, Section.bindLayer.eq_def]
          dsimp only
          rw [filterMapM_erase]
          intro x
          simp only [bindSetting_eq, hfind, Option.map_none]
          rfl
      | cons l path =>
        rw [Tree.removeAt_cons_cons]
        cases hk : Fields.get? k fs with
        | none => rfl
        | some x =>
          rw [Section.bindLayer.eq_def, Section.bindLayer.eq_def]
          dsimp only
          -- The field stays, and what its setting binds does not change.
          have hsame :
              bindSetting settings k (x.removeAt (l :: path)) = bindSetting settings k x := by
            rw [bindSetting_eq, bindSetting_eq]
            cases hfind : settings.find? fun s => k = s.name with
            | none => rfl
            | some s =>
              rw [hfind] at h
              cases s with
              | value => cases h
              | nested name sub => exact congrArg some (ih h x)
          rw [filterMapM_set hk]
          simp only [hsame]
    | _ => rw [Tree.removeAt_of_fields?_eq_none rfl]

/-! ## Strict binding -/

/-- The overlooked keys of a tree, in its order. -/
def Section.overlooked (sec : Section) (t : Tree) : List KeyPath := t.keyPaths.filter sec.overlooks

theorem ne_nil_of_mem_overlooked {t : Tree} (h : path ∈ sec.overlooked t) : path ≠ [] :=
  ne_nil_of_overlooks (List.mem_filter.1 h).2

/-- The tree without its overlooked keys. -/
def Section.prune (sec : Section) (t : Tree) : Tree :=
  (sec.overlooked t).foldl (fun t path => t.removeAt path) t

theorem foldl_removeAt_invariant {paths : List KeyPath}
    (hpaths : ∀ path ∈ paths, sec.overlooks path = true) {t : Tree} (ht : t.Plain) :
    (paths.foldl (fun t path => t.removeAt path) t).Plain ∧
      sec.bindLayer (paths.foldl (fun t path => t.removeAt path) t) = sec.bindLayer t := by
  induction paths generalizing t with
  | nil => exact ⟨ht, rfl⟩
  | cons path paths ih =>
    rw [List.forall_mem_cons] at hpaths
    obtain ⟨hplain, hbind⟩ := ih hpaths.2 (ht.removeAt path)
    exact ⟨hplain, hbind.trans (bindLayer_removeAt hpaths.1 t)⟩

theorem exists_foldl_removeAt_object (paths : List KeyPath) (fs : Fields Tree) :
    ∃ gs, paths.foldl (fun t path => t.removeAt path) (Tree.object fs) = .object gs := by
  induction paths generalizing fs with
  | nil => exact ⟨fs, rfl⟩
  | cons path paths ih =>
    obtain ⟨gs, hgs⟩ := Tree.exists_removeAt_object path fs
    rw [List.foldl_cons, hgs]
    exact ih gs

/-- **Nothing is overlooked in a pruned tree.** -/
theorem overlooked_prune {t : Tree} (ht : t.Plain) : sec.overlooked (sec.prune t) = [] := by
  rw [Section.overlooked, Section.prune,
    Tree.keyPaths_foldl_removeAt ht fun path hpath => ne_nil_of_mem_overlooked hpath,
    List.filter_filter, List.filter_eq_nil_iff]
  intro path hpath h
  obtain ⟨hover, hnone⟩ := by simpa using h
  exact hnone path (List.mem_filter.2 ⟨hpath, hover⟩) (List.prefix_refl path)

variable {fs : Fields Tree}

theorem Section.Shallow.validate_eq (h : sec.Shallow) (ht : (Tree.object fs).Plain) :
    sec.validate (.object fs) = (sec.readLayer (.object fs) >>= fun _ =>
      if sec.overlooked (.object fs) = [] then .ok ()
      else .error (.unknownKeys ((sec.overlooked (.object fs)).map KeyPath.display))) := by
  have hkeys : sec.unknownKeys (Tree.object fs).erase = sec.overlooked (.object fs) := by
    rw [Tree.erase_of_atomFree ht.atomFree, h.unknownKeys_eq, Section.overlooked]
  rw [Section.validate, hkeys]
  cases sec.readLayer (.object fs) with
  | error e => rfl
  | ok layer => cases sec.overlooked (.object fs) <;> rfl

theorem bind_strict (sec : Section) (t : Tree) :
    sec.target.bind true t = (sec.validate t >>= fun _ => sec.target.bind false t) := rfl

theorem bind_lenient (sec : Section) (t : Tree) :
    sec.target.bind false t = (sec.readLayer t >>= fun layer => sec.loadLayer [] layer) := rfl

theorem Section.Shallow.bind_strict_of_overlooked_eq_nil (h : sec.Shallow)
    (ht : (Tree.object fs).Plain) (hnil : sec.overlooked (.object fs) = []) :
    sec.target.bind true (.object fs) = sec.target.bind false (.object fs) := by
  rw [bind_strict, h.validate_eq ht, if_pos hnil, bind_lenient]
  cases sec.readLayer (.object fs) <;> rfl

theorem Section.Shallow.bind_strict_eq_ok_iff (h : sec.Shallow) (ht : (Tree.object fs).Plain)
    (c : Tree) :
    sec.target.bind true (.object fs) = .ok c ↔
      sec.target.bind false (.object fs) = .ok c ∧ sec.overlooked (.object fs) = [] := by
  by_cases hnil : sec.overlooked (.object fs) = []
  · simp [h.bind_strict_of_overlooked_eq_nil ht hnil, hnil]
  · rw [bind_strict, h.validate_eq ht, if_neg hnil]
    cases sec.readLayer (.object fs) <;> simp [hnil]

/-- **Without its overlooked keys a tree binds strictly to what it binds to otherwise.** -/
theorem Section.Shallow.bind_strict_prune (h : sec.Shallow) (ht : (Tree.object fs).Plain) :
    sec.target.bind true (sec.prune (.object fs)) = sec.target.bind false (.object fs) := by
  obtain ⟨hplain, hlayer⟩ :=
    foldl_removeAt_invariant (fun path hpath => (List.mem_filter.1 hpath).2) ht
  change (sec.prune (.object fs)).Plain at hplain
  change sec.bindLayer (sec.prune (.object fs)) = _ at hlayer
  have hread : sec.readLayer (sec.prune (.object fs)) = sec.readLayer (.object fs) := by
    rw [Section.readLayer, Section.readLayer, Tree.erase_of_atomFree hplain.atomFree,
      Tree.erase_of_atomFree ht.atomFree, hlayer]
  have hnil : sec.overlooked (sec.prune (.object fs)) = [] := overlooked_prune ht
  obtain ⟨gs, hgs⟩ := exists_foldl_removeAt_object (sec.overlooked (.object fs)) fs
  change sec.prune (.object fs) = .object gs at hgs
  rw [hgs] at hplain hread hnil ⊢
  rw [h.bind_strict_of_overlooked_eq_nil hplain hnil, bind_lenient, bind_lenient, hread]

/-- What a shallow section overlooks: keys of the tree that are not declared, and keys of its
sections that those do not declare. -/
theorem Section.Shallow.mem_overlooked (h : sec.Shallow) (ht : (Tree.object fs).Plain) :
    path ∈ sec.overlooked (.object fs) ↔
      (∃ k, path = [k] ∧ k ∈ fs.keys ∧ k ∉ sec.names) ∨
      ∃ name sub gs k, path = [name, k] ∧ Setting.nested name sub ∈ sec.settings ∧
        Fields.get? name fs = some (.object gs) ∧ k ∈ Fields.keys gs ∧ k ∉ sub.names := by
  obtain ⟨hd, -⟩ := Tree.plain_object.1 ht
  rw [Section.overlooked, List.mem_filter]
  constructor
  · rintro ⟨hmem, hover⟩
    match path with
    | [] => exact absurd rfl (ne_nil_of_overlooks hover)
    | [k] =>
      exact .inl ⟨k, rfl, Tree.singleton_mem_keyPaths_object.1 hmem, overlooks_singleton.1 hover⟩
    | name :: k :: path =>
      obtain ⟨sub, hsub, hover⟩ := (overlooks_cons_iff h.nodup (List.cons_ne_nil k path)).1 hover
      obtain ⟨l, hl⟩ := exists_key_of_overlooks (h.isShallow _ hsub) hover
      cases hl
      obtain ⟨x, hx, hbelow⟩ := Tree.cons_mem_keyPaths_object.1 hmem
      replace hbelow := hbelow.resolve_left (List.cons_ne_nil k [])
      obtain ⟨gs, rfl⟩ := Tree.exists_object_of_mem_keyPaths hbelow
      exact .inr ⟨name, sub, gs, k, rfl, hsub, hd.get?_of_mem hx,
        Tree.singleton_mem_keyPaths_object.1 hbelow, overlooks_singleton.1 hover⟩
  · rintro (⟨k, rfl, hk, hnot⟩ | ⟨name, sub, gs, k, rfl, hsub, hx, hk, hnot⟩)
    · exact ⟨Tree.singleton_mem_keyPaths_object.2 hk, overlooks_singleton.2 hnot⟩
    · refine ⟨Tree.cons_mem_keyPaths_object.2 ⟨_, Fields.mem_of_get? hx, .inr ?_⟩, ?_⟩
      · exact Tree.singleton_mem_keyPaths_object.2 hk
      · exact (overlooks_cons_iff h.nodup (List.cons_ne_nil k [])).2
          ⟨sub, hsub, overlooks_singleton.2 hnot⟩

theorem shallow_config : Demo.config.Shallow := ⟨by decide, by decide⟩

theorem shallow_server : Samples.server.Shallow := ⟨by decide, by decide⟩

/-- **Strictness reports exactly the undeclared keys.** A tree that does not bind is refused for
the same fault either way. From any other, validating refuses the keys of the tree that are not
declared and, below the sections that are objects, the keys that those do not declare: each once
and in the order of the tree. So strict binding is lenient binding where there is no such key, and
without those keys a tree binds strictly to what it binds to leniently with them. -/
theorem strict_reports_undeclared {sec : Section}
    (hsec : sec = Demo.config ∨ sec = Samples.server) {fs : Fields Tree}
    (ht : (Tree.object fs).Plain) :
    let t := Tree.object fs
    let undeclared := sec.overlooked t
    (undeclared.Sublist t.keyPaths ∧ undeclared.Nodup ∧
      ∀ path, path ∈ undeclared ↔
        (∃ k, path = [k] ∧ k ∈ fs.keys ∧ k ∉ sec.names) ∨
        ∃ name sub gs k, path = [name, k] ∧ Setting.nested name sub ∈ sec.settings ∧
          Fields.get? name fs = some (.object gs) ∧ k ∈ Fields.keys gs ∧ k ∉ sub.names) ∧
    (∀ fault, sec.validate t = .error (.bind fault) ↔ sec.readLayer t = .error (.bind fault)) ∧
    ((¬ ∃ fault, sec.readLayer t = .error (.bind fault)) →
      sec.validate t =
        if undeclared = [] then .ok ()
        else .error (.unknownKeys (undeclared.map KeyPath.display))) ∧
    (∀ c, sec.target.bind true t = .ok c ↔ sec.target.bind false t = .ok c ∧ undeclared = []) ∧
    sec.target.bind true (sec.prune t) = sec.target.bind false t := by
  intro t undeclared
  have h : sec.Shallow := by
    rcases hsec with rfl | rfl
    · exact shallow_config
    · exact shallow_server
  refine ⟨⟨List.filter_sublist, (Tree.nodup_keyPaths ht.wellFormed).filter _,
    fun path => h.mem_overlooked ht⟩, fun fault => ?faults, fun hbinds => ?reports,
    h.bind_strict_eq_ok_iff ht, h.bind_strict_prune ht⟩
  case faults =>
    rw [h.validate_eq ht]
    cases sec.readLayer (.object fs) with
    | error e => simp
    | ok layer => by_cases hnil : sec.overlooked (.object fs) = [] <;> simp [hnil]
  case reports =>
    rw [h.validate_eq ht]
    cases hread : sec.readLayer (.object fs) with
    | ok layer => rfl
    | error e =>
      obtain ⟨fault, -, rfl⟩ := mapError_eq_error.1 hread
      exact absurd ⟨fault, hread⟩ hbinds

/-- Keys that are not declared at the root and in a section, one of them above others, and two
that are displayed alike. -/
theorem strict_reports_undeclared_server :
    let fs : Fields Tree := [("debug", .bool true), ("typo", .object [("host", .null)]),
      ("database", .object [("url", .null), ("typo", .null)]), ("database.typo", .null)]
    (Tree.object fs).Plain ∧
      (¬ ∃ fault, Samples.server.readLayer (.object fs) = .error (.bind fault)) ∧
      Samples.server.validate (.object fs) =
        .error (.unknownKeys ["typo", "database.typo", "database.typo"]) ∧
      Samples.server.prune (.object fs) =
        .object [("debug", .bool true), ("database", .object [("url", .null)])] ∧
      (¬ ∃ c, Samples.server.target.bind true (.object fs) = .ok c) ∧
      Samples.server.target.bind true
          (.object [("debug", .bool true), ("database", .object [("url", .null)])]) =
        Samples.server.target.bind false (.object fs) := by
  intro fs
  have ht : (Tree.object fs).Plain := ⟨by simp [fs, Fields.Distinct, Fields.keys], by decide⟩
  have hread : Samples.server.readLayer (.object fs) =
      .ok (.object [("host", .null), ("port", .null), ("debug", .bool true),
        ("database", .object [("url", .null), ("pool_size", .null)])]) :=
    toOption_eq_some.1 (by decide +kernel)
  have hbinds : ¬ ∃ fault, Samples.server.readLayer (.object fs) = .error (.bind fault) := by
    rintro ⟨fault, hfault⟩
    cases hread.symm.trans hfault
  have hover : Samples.server.overlooked (.object fs) =
      [["typo"], ["database", "typo"], ["database.typo"]] := by decide +kernel
  have hprune : Samples.server.prune (.object fs) =
      .object [("debug", .bool true), ("database", .object [("url", .null)])] := by decide +kernel
  obtain ⟨-, -, hreports, hok, hsame⟩ := strict_reports_undeclared (.inr rfl) ht
  refine ⟨ht, hbinds, ?_, hprune, ?_, hprune ▸ hsame⟩
  · rw [hreports hbinds, hover]
    rfl
  · rintro ⟨c, hc⟩
    cases hover.symm.trans ((hok c).1 hc).2

end ConfigOverlay.Schema
