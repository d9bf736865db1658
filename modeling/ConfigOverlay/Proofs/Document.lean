import ConfigOverlay.Proofs.Json.Plain
import ConfigOverlay.World

/-!
# Documents are plain

Whatever the format of a document, its tree holds no atom and no object of it a key twice
(`plain_of_loadDocument`). The readers of nested values are parameters of the readers of entries,
so every reader passes on what is known of the reader it is given.
-/

namespace ConfigOverlay

/-! ## YAML -/

namespace Yaml

variable {node : NodeReader}

theorem plain_of_plainTree? {cs : List Char} {t : Tree} (h : plainTree? cs = some t) : t.Plain := by
  unfold plainTree? at h
  dsimp only at h
  split at h
  · cases h
    exact Tree.plain_null
  split at h
  · cases h
    exact Tree.plain_bool _
  split at h
  · split at h
    · cases h
      exact Tree.plain_number _
    · split_ifs at h
      cases h
      cases finite? cs with
      | none => exact Tree.plain_text _
      | some x => exact Tree.plain_number _
  · split at h
    · cases h
      exact Tree.plain_null
    · split at h <;> cases h
      · exact Tree.plain_number _
      · exact Tree.plain_text _

/-- Reads plain trees only. -/
def NodeReader.Plain (node : NodeReader) : Prop :=
  ∀ {ts t rest}, node ts = some (t, rest) → t.Plain

theorem plain_nodeOrNull? (hn : node.Plain) : NodeReader.Plain (nodeOrNull? node) := by
  intro ts t rest h
  unfold nodeOrNull? at h
  split_ifs at h
  · exact hn h
  · cases h
    exact Tree.plain_null

theorem plain_value? (hn : node.Plain) : NodeReader.Plain (value? node) := by
  intro ts t rest h
  unfold value? at h
  split at h
  · exact hn h
  · exact plain_nodeOrNull? hn h
  · cases h
    exact Tree.plain_null

theorem plain_field? (hn : node.Plain) {ts rest : List Token} {f : String × Tree}
    (h : field? node ts = some (f, rest)) : f.2.Plain := by
  obtain ⟨⟨key, ts'⟩, -, h⟩ := Option.bind_eq_some_iff.1 h
  obtain ⟨⟨value, ts''⟩, hv, h⟩ := Option.bind_eq_some_iff.1 h
  cases h
  exact plain_value? hn hv

theorem plain_flowField? (hn : node.Plain) {ts rest : List Token} {f : String × Tree}
    (h : flowField? node ts = some (f, rest)) : f.2.Plain := by
  unfold flowField? at h
  split at h
  · exact plain_field? hn h
  · cases h
    exact Tree.plain_null
  · cases h
    exact Tree.plain_null
  · cases h

theorem plain_items? (hn : node.Plain) {fuel : Nat} {ts rest : List Token} {xs : List Tree}
    (h : items? node fuel ts = some (xs, rest)) : ∀ x ∈ xs, x.Plain := by
  fun_induction items? node fuel ts generalizing xs rest with
  | case1 fuel ts ih =>
    obtain ⟨⟨x, ts'⟩, hx, h⟩ := Option.bind_eq_some_iff.1 h
    obtain ⟨⟨ys, ts''⟩, hys, h⟩ := Option.bind_eq_some_iff.1 h
    cases h
    exact List.forall_mem_cons.2 ⟨plain_nodeOrNull? hn hx, ih _ hys⟩
  | case2 => cases h
  | case3 =>
    cases h
    simp

theorem plain_fields? (hn : node.Plain) {fuel : Nat} {ts rest : List Token}
    {fs : List (String × Tree)} (h : fields? node fuel ts = some (fs, rest)) :
    ∀ f ∈ fs, f.2.Plain := by
  fun_induction fields? node fuel ts generalizing fs rest with
  | case1 fuel ts ih =>
    obtain ⟨⟨f, ts'⟩, hf, h⟩ := Option.bind_eq_some_iff.1 h
    obtain ⟨⟨gs, ts''⟩, hgs, h⟩ := Option.bind_eq_some_iff.1 h
    cases h
    exact List.forall_mem_cons.2 ⟨plain_field? hn hf, ih _ hgs⟩
  | case2 => cases h
  | case3 =>
    cases h
    simp

theorem forall_mem_of_separated? {α : Type} {P : α → Prop} {close : Token}
    {entry : List Token → Option (α × List Token)}
    (he : ∀ {ts x rest}, entry ts = some (x, rest) → P x) {fuel : Nat} {ts rest : List Token}
    {xs : List α} (h : separated? close entry fuel ts = some (xs, rest)) : ∀ x ∈ xs, P x := by
  induction fuel generalizing ts rest xs with
  | zero => cases h
  | succ fuel ih =>
    rw [separated?] at h
    split_ifs at h
    · cases h
      simp
    · obtain ⟨⟨x, ts'⟩, hx, h⟩ := Option.bind_eq_some_iff.1 h
      dsimp only at h
      split at h
      · obtain ⟨⟨ys, ts''⟩, hys, h⟩ := Option.bind_eq_some_iff.1 h
        cases h
        exact List.forall_mem_cons.2 ⟨he hx, ih hys⟩
      · split_ifs at h
        cases h
        simpa using he hx
      · cases h

theorem of_afterBlock? {α : Type} {x : α × List Token} {y : α} {rest : List Token}
    (h : afterBlock? x = some (y, rest)) : x.1 = y := by
  unfold afterBlock? at h
  split at h <;> cases h
  rfl

theorem plain_object_ofPairs {fs : List (String × Tree)} (h : ∀ f ∈ fs, f.2.Plain) :
    (Tree.object (Fields.ofPairs fs)).Plain :=
  Tree.plain_object.2 ⟨Fields.distinct_ofPairs fs, Fields.forall_mem_ofPairs h⟩

/-- Every node is plain, however deep collections may nest. -/
theorem plain_node? (allowance : Nat) : NodeReader.Plain (node? allowance) := by
  induction allowance using Nat.strongRecOn with
  | ind allowance ih =>
    intro ts t rest h
    unfold node? at h
    split at h
    · obtain ⟨t', ht, h⟩ := Option.map_eq_some_iff.1 h
      cases h
      exact plain_of_plainTree? ht
    · cases h
      exact Tree.plain_text _
    · obtain ⟨x, hx, h⟩ := Option.bind_eq_some_iff.1 h
      obtain ⟨⟨xs, ts'⟩, hxs, h⟩ := Option.bind_eq_some_iff.1 h
      cases h
      exact Tree.plain_array.2 (of_afterBlock? hxs ▸ plain_items? (ih _ (by omega)) hx)
    · obtain ⟨⟨xs, ts'⟩, hxs, h⟩ := Option.bind_eq_some_iff.1 h
      cases h
      exact Tree.plain_array.2 (plain_items? (ih _ (by omega)) hxs)
    · obtain ⟨x, hx, h⟩ := Option.bind_eq_some_iff.1 h
      obtain ⟨⟨fs, ts'⟩, hfs, h⟩ := Option.bind_eq_some_iff.1 h
      cases h
      exact plain_object_ofPairs (of_afterBlock? hfs ▸ plain_fields? (ih _ (by omega)) hx)
    · obtain ⟨⟨xs, ts'⟩, hxs, h⟩ := Option.bind_eq_some_iff.1 h
      cases h
      exact Tree.plain_array.2 (forall_mem_of_separated? (ih _ (by omega)) hxs)
    · obtain ⟨⟨fs, ts'⟩, hfs, h⟩ := Option.bind_eq_some_iff.1 h
      cases h
      exact plain_object_ofPairs
        (forall_mem_of_separated? (fun hf => plain_flowField? (ih _ (by omega)) hf) hfs)
    · dsimp only at h
      split_ifs at h
      · cases h
      · obtain ⟨⟨f, ts'⟩, hf, h⟩ := Option.bind_eq_some_iff.1 h
        cases h
        exact Tree.plain_object.2 ⟨by simp [Fields.Distinct, Fields.keys],
          by simpa using plain_field? (ih _ (by omega)) hf⟩
    · cases h

theorem plain_of_document? {ts : List Token} {t : Tree} (h : document? ts = some t) : t.Plain := by
  -- What follows the node decides only whether there is a document.
  have hend : ∀ {t' : Tree} {ts' : List Token},
      (if ts'.all (· = .documentEnd) then some t' else none) = some t → t' = t := by
    intro t' ts' h
    split_ifs at h
    exact Option.some.inj h
  unfold document? at h
  dsimp only at h
  split at h
  · rw [Option.bind_eq_bind, Option.bind_some] at h
    exact hend h ▸ Tree.plain_null
  · obtain ⟨⟨t', ts'⟩, ht, h⟩ := Option.bind_eq_some_iff.1 h
    exact hend h ▸ plain_nodeOrNull? (plain_node? _) ht
  · obtain ⟨⟨t', ts'⟩, ht, h⟩ := Option.bind_eq_some_iff.1 h
    exact hend h ▸ plain_node? _ ht

theorem plain_of_parse? {text : String} {t : Tree} (h : parse? text = some t) : t.Plain := by
  unfold parse? at h
  dsimp only at h
  split_ifs at h
  · cases h
  · obtain ⟨ts, -, h⟩ := Option.bind_eq_some_iff.1 h
    exact plain_of_document? h

end Yaml

/-! ## TOML -/

namespace Toml

theorem plain_ofInt (n : Int) : (Tree.ofInt n).Plain := by
  unfold Tree.ofInt
  split
  · exact Tree.plain_number _
  · exact Tree.plain_null

theorem plain_of_ite_ofInt {c : Prop} [Decidable c] {n : Int} {t : Tree}
    (h : (if c then some (Tree.ofInt n) else none) = some t) : t.Plain := by
  split_ifs at h
  exact Option.some.inj h ▸ plain_ofInt n

theorem plain_of_unsignedTree? {negative : Bool} {cs : List Char} {t : Tree}
    (h : unsignedTree? negative cs = some t) : t.Plain := by
  unfold unsignedTree? at h
  split at h
  · cases h
    exact Tree.plain_null
  split at h
  · exact plain_of_ite_ofInt h
  · obtain ⟨digits, -, h⟩ := Option.bind_eq_some_iff.1 h
    obtain ⟨x, -, h⟩ := Option.bind_eq_some_iff.1 h
    cases x with
    | some x =>
      cases h
      exact Tree.plain_number _
    | none =>
      dsimp only at h
      split_ifs at h
      cases h
      exact Tree.plain_null

theorem plain_of_scalarTree? {cs : List Char} {t : Tree} (h : scalarTree? cs = some t) :
    t.Plain := by
  have hradix : ∀ {r digits}, (marked? r digits).bind
      (fun n => if n < 2 ^ 63 then some (Tree.ofInt n) else none) = some t → t.Plain := by
    intro r digits h
    obtain ⟨n, -, h⟩ := Option.bind_eq_some_iff.1 h
    exact plain_of_ite_ofInt h
  unfold scalarTree? at h
  dsimp only at h
  split at h
  · cases h
    exact Tree.plain_bool _
  · cases h
    exact Tree.plain_bool _
  · exact hradix h
  · exact hradix h
  · exact hradix h
  · exact plain_of_unsignedTree? h
  · exact plain_of_unsignedTree? h
  · exact plain_of_unsignedTree? h

/-- Reads plain trees only. -/
def ValueReader.Plain (value : ValueReader) : Prop :=
  ∀ {cs t rest}, value cs = some (t, rest) → t.Plain

theorem plain_items? {value : ValueReader} (hv : value.Plain) {fuel : Nat} {cs rest : List Char}
    {xs : List Tree} (h : items? value fuel cs = some (xs, rest)) : ∀ x ∈ xs, x.Plain := by
  induction fuel generalizing cs rest xs with
  | zero => cases h
  | succ fuel ih =>
    rw [items?] at h
    split at h
    · cases h
      simp
    · obtain ⟨⟨x, after⟩, hx, h⟩ := Option.bind_eq_some_iff.1 h
      dsimp only at h
      split at h
      · cases h
        simpa using hv hx
      · obtain ⟨⟨ys, after'⟩, hys, h⟩ := Option.bind_eq_some_iff.1 h
        cases h
        exact List.forall_mem_cons.2 ⟨hv hx, ih hys⟩
      · cases h

theorem plain_pair? {value : ValueReader} (hv : value.Plain) {cs rest : List Char}
    {p : KeyPath × Tree} (h : pair? value cs = some (p, rest)) : p.2.Plain := by
  unfold pair? at h
  obtain ⟨⟨path, after⟩, -, h⟩ := Option.bind_eq_some_iff.1 h
  dsimp only at h
  split at h
  · obtain ⟨⟨x, after'⟩, hx, h⟩ := Option.bind_eq_some_iff.1 h
    cases h
    exact hv hx
  · cases h

theorem plain_pairs? {value : ValueReader} (hv : value.Plain) {fuel : Nat} {cs rest : List Char}
    {ps : List (KeyPath × Tree)} (h : pairs? value fuel cs = some (ps, rest)) :
    ∀ p ∈ ps, p.2.Plain := by
  induction fuel generalizing cs rest ps with
  | zero => cases h
  | succ fuel ih =>
    rw [pairs?] at h
    obtain ⟨⟨p, after⟩, hp, h⟩ := Option.bind_eq_some_iff.1 h
    dsimp only at h
    split at h
    · cases h
      simpa using plain_pair? hv hp
    · obtain ⟨⟨qs, after'⟩, hqs, h⟩ := Option.bind_eq_some_iff.1 h
      cases h
      exact List.forall_mem_cons.2 ⟨plain_pair? hv hp, ih hqs⟩
    · cases h

/-! ### Tables -/

theorem fieldTrees_eq_map (entries : Entries) :
    fieldTrees entries = entries.map fun e => (e.1, e.2.tree) := by
  induction entries with
  | nil => rfl
  | cons e entries ih => rw [fieldTrees, ih, List.map_cons]

theorem itemTrees_eq_map (items : List Entries) :
    itemTrees items = items.map fun entries => .object (fieldTrees entries) := by
  induction items with
  | nil => rfl
  | cons entries items ih => rw [itemTrees, ih, List.map_cons]

/-- A table that stands for a plain object. -/
def PlainTable (entries : Entries) : Prop := (Tree.object (fieldTrees entries)).Plain

theorem plainTable_iff {entries : Entries} :
    PlainTable entries ↔ entries.Distinct ∧ ∀ e ∈ entries, e.2.tree.Plain := by
  rw [PlainTable, fieldTrees_eq_map, Tree.plain_object, Fields.Distinct,
    Fields.keys_map fun _ => Entry.tree, List.forall_mem_map, Fields.Distinct]

theorem plainTable_nil : PlainTable [] := plainTable_iff.2 ⟨List.nodup_nil, by simp⟩

theorem PlainTable.set {entries : Entries} (h : PlainTable entries) (k : String) {e : Entry}
    (he : e.tree.Plain) : PlainTable (entries.set k e) := by
  obtain ⟨hd, hf⟩ := plainTable_iff.1 h
  exact plainTable_iff.2 ⟨hd.set k e,
    Fields.forall_mem_set (P := fun e : Entry => e.tree.Plain) hf k he⟩

theorem PlainTable.of_get? {entries : Entries} (h : PlainTable entries) {k : String} {e : Entry}
    (he : entries.get? k = some e) : e.tree.Plain :=
  (plainTable_iff.1 h).2 _ (Fields.mem_of_get? he)

theorem plain_table {origin : Origin} {entries : Entries} :
    (Entry.table origin entries).tree.Plain ↔ PlainTable entries := by
  rw [Entry.tree, PlainTable]

theorem plain_tables {items : List Entries} :
    (Entry.tables items).tree.Plain ↔ ∀ entries ∈ items, PlainTable entries := by
  rw [Entry.tree, itemTrees_eq_map, Tree.plain_array, List.forall_mem_map]
  rfl

theorem PlainTable.set_last {entries : Entries} (h : PlainTable entries) {k : String}
    {items : List Entries} (hk : entries.get? k = some (.tables items)) {last sub : Entries}
    (hlast : items.getLast? = some last) (hsub : PlainTable last → PlainTable sub) :
    PlainTable (entries.set k (.tables (items.dropLast ++ [sub]))) := by
  have hitems := plain_tables.1 (h.of_get? hk)
  refine h.set k (plain_tables.2 fun e he => ?_)
  rcases List.mem_append.1 he with he | he
  · exact hitems e ((List.dropLast_sublist items).subset he)
  · rw [List.mem_singleton.1 he]
    exact hsub (hitems last (List.mem_of_getLast? hlast))

theorem PlainTable.write? {value : Tree} (hv : value.Plain) {mayTake : Bool} {path : KeyPath}
    {entries out : Entries} (he : PlainTable entries)
    (h : write? value mayTake path entries = some out) : PlainTable out := by
  induction path generalizing mayTake entries out with
  | nil => simp [Toml.write?] at h
  | cons k path ih =>
    cases path with
    | nil =>
      rw [Toml.write?] at h
      split_ifs at h
      cases h
      exact he.set k hv
    | cons l path =>
      rw [Toml.write?.eq_3 _ _ _ _ _ (by simp)] at h
      split at h
      · obtain ⟨sub, hsub, h⟩ := Option.map_eq_some_iff.1 h
        cases h
        exact he.set k (plain_table.2 (ih plainTable_nil hsub))
      · cases h
      · rename_i hk
        split_ifs at h
        obtain ⟨sub, hsub, h⟩ := Option.map_eq_some_iff.1 h
        cases h
        exact he.set k (plain_table.2 (ih (plain_table.1 (he.of_get? hk)) hsub))
      · rename_i hk
        obtain ⟨last, hlast, h⟩ := Option.bind_eq_some_iff.1 h
        obtain ⟨sub, hsub, h⟩ := Option.bind_eq_some_iff.1 h
        cases h
        exact he.set_last hk hlast fun hl => ih hl hsub

theorem PlainTable.fill? {pairs : List (KeyPath × Tree)} (hp : ∀ p ∈ pairs, p.2.Plain)
    {entries out : Entries} (he : PlainTable entries) (h : fill? pairs entries = some out) :
    PlainTable out := by
  induction pairs generalizing entries with
  | nil =>
    cases h
    exact he
  | cons p pairs ih =>
    rw [List.forall_mem_cons] at hp
    obtain ⟨mid, hmid, h⟩ := Option.bind_eq_some_iff.1 h
    exact ih hp.2 (he.write? hp.1 hmid) h

/-- A change at the end of a path keeps a table plain, when it keeps the tables there plain. -/
theorem PlainTable.modify? {f : Entries → Option Entries}
    (hf : ∀ {entries out}, PlainTable entries → f entries = some out → PlainTable out)
    {path : KeyPath} {entries out : Entries} (he : PlainTable entries)
    (h : modify? f path entries = some out) : PlainTable out := by
  induction path generalizing entries out with
  | nil => exact hf he h
  | cons k path ih =>
    rw [Toml.modify?] at h
    split at h
    · obtain ⟨sub, hsub, h⟩ := Option.map_eq_some_iff.1 h
      cases h
      exact he.set k (plain_table.2 (ih plainTable_nil hsub))
    · cases h
    · rename_i hk
      obtain ⟨sub, hsub, h⟩ := Option.map_eq_some_iff.1 h
      cases h
      exact he.set k (plain_table.2 (ih (plain_table.1 (he.of_get? hk)) hsub))
    · rename_i hk
      obtain ⟨last, hlast, h⟩ := Option.bind_eq_some_iff.1 h
      obtain ⟨sub, hsub, h⟩ := Option.bind_eq_some_iff.1 h
      cases h
      exact he.set_last hk hlast fun hl => ih hl hsub

theorem PlainTable.openTable? {k : String} {pairs : List (KeyPath × Tree)}
    (hp : ∀ p ∈ pairs, p.2.Plain) {entries out : Entries} (he : PlainTable entries)
    (h : openTable? k pairs entries = some out) : PlainTable out := by
  -- The table of the header stands behind the entries of the other keys.
  have hend : ∀ {start : Entries}, PlainTable start → (Toml.fill? pairs start).bind
      (fun sub => some (entries.erase k ++ [(k, .table .header sub)])) = some out →
      PlainTable out := by
    intro start hs h
    obtain ⟨sub, hsub, h⟩ := Option.bind_eq_some_iff.1 h
    cases h
    obtain ⟨hd, hf⟩ := plainTable_iff.1 he
    refine plainTable_iff.2 ⟨(hd.filter _).append ?_ ?_, fun e hm => ?_⟩
    · simp [Fields.Distinct, Fields.keys]
    · intro l hl hl'
      obtain ⟨e, hem, rfl⟩ := List.mem_map.1 hl
      have hne := (List.mem_filter.1 hem).2
      simp_all [Fields.keys]
    · rcases List.mem_append.1 hm with hm | hm
      · exact hf e (List.mem_filter.1 hm).1
      · rw [List.mem_singleton.1 hm]
        exact plain_table.2 (hs.fill? hp hsub)
  unfold Toml.openTable? at h
  dsimp only at h
  split at h
  · exact hend plainTable_nil h
  · rename_i hk
    exact hend (plain_table.1 (he.of_get? hk)) h
  · cases h

theorem PlainTable.appendTable? {k : String} {pairs : List (KeyPath × Tree)}
    (hp : ∀ p ∈ pairs, p.2.Plain) {entries out : Entries} (he : PlainTable entries)
    (h : appendTable? k pairs entries = some out) : PlainTable out := by
  have hend : ∀ {items : List Entries}, (∀ item ∈ items, PlainTable item) →
      (Toml.fill? pairs []).bind
        (fun sub => some (entries.set k (.tables (items ++ [sub])))) = some out →
      PlainTable out := by
    intro items hi h
    obtain ⟨sub, hsub, h⟩ := Option.bind_eq_some_iff.1 h
    cases h
    refine he.set k (plain_tables.2 fun e hm => ?_)
    rcases List.mem_append.1 hm with hm | hm
    · exact hi e hm
    · rw [List.mem_singleton.1 hm]
      exact plainTable_nil.fill? hp hsub
  unfold Toml.appendTable? at h
  dsimp only at h
  split at h
  · exact hend (by simp) h
  · rename_i hk
    exact hend (plain_tables.1 (he.of_get? hk)) h
  · cases h

/-! ### Documents -/

theorem plain_of_inlineTable? {value : ValueReader} (hv : value.Plain) :
    ValueReader.Plain (inlineTable? value) := by
  intro cs t rest h
  unfold inlineTable? at h
  split at h
  · cases h
    exact Tree.plain_empty
  · obtain ⟨⟨pairs, after⟩, hp, h⟩ := Option.bind_eq_some_iff.1 h
    obtain ⟨entries, he, h⟩ := Option.bind_eq_some_iff.1 h
    cases h
    exact plainTable_nil.fill? (plain_pairs? hv hp) he

theorem plain_value? (allowance : Nat) : ValueReader.Plain (value? allowance) := by
  have hscalar : ∀ {cs rest : List Char} {t : Tree},
      (scalarTree? (cs.takeWhile continuesScalar)).bind
        (fun t => some (t, cs.dropWhile continuesScalar)) = some (t, rest) → t.Plain := by
    intro cs rest t h
    obtain ⟨t', ht, h⟩ := Option.bind_eq_some_iff.1 h
    cases h
    exact plain_of_scalarTree? ht
  have htext : ∀ {cs rest : List Char} {t : Tree}, (text? cs).map
      (fun p => (Tree.text p.1, p.2)) = some (t, rest) → t.Plain := by
    intro cs rest t h
    obtain ⟨⟨s, after⟩, -, h⟩ := Option.map_eq_some_iff.1 h
    cases h
    exact Tree.plain_text s
  induction allowance with
  | zero =>
    intro cs t rest h
    unfold value? at h
    split at h
    · cases h
    · split_ifs at h
      · exact htext h
      · exact hscalar h
  | succ allowance ih =>
    intro cs t rest h
    unfold value? at h
    split at h
    · cases h
    · split_ifs at h
      · obtain ⟨⟨xs, after⟩, hxs, h⟩ := Option.map_eq_some_iff.1 h
        cases h
        exact Tree.plain_array.2 (plain_items? ih hxs)
      · exact plain_of_inlineTable? ih h
      · exact htext h
      · exact hscalar h

/-- A statement that writes plain values only. -/
def Statement.Plain : Statement → Prop
  | .header _ => True
  | .pair _ value => value.Plain

theorem plain_of_statement? {cs rest : List Char} {s : Statement}
    (h : statement? cs = some (s, rest)) : s.Plain := by
  unfold statement? at h
  split at h
  · obtain ⟨⟨path, after⟩, -, h⟩ := Option.bind_eq_some_iff.1 h
    split at h
    · obtain ⟨after', -, h⟩ := Option.bind_eq_some_iff.1 h
      cases h
      trivial
    · cases h
  · obtain ⟨⟨path, after⟩, -, h⟩ := Option.bind_eq_some_iff.1 h
    split at h
    · obtain ⟨after', -, h⟩ := Option.bind_eq_some_iff.1 h
      cases h
      trivial
    · cases h
  · obtain ⟨⟨⟨path, value⟩, after⟩, hp, h⟩ := Option.bind_eq_some_iff.1 h
    obtain ⟨after', -, h⟩ := Option.bind_eq_some_iff.1 h
    cases h
    exact plain_pair? (plain_value? _) hp

theorem plain_of_statements? {fuel : Nat} {cs : List Char} {ss : List Statement}
    (h : statements? fuel cs = some ss) : ∀ s ∈ ss, s.Plain := by
  induction fuel generalizing cs ss with
  | zero => cases h
  | succ fuel ih =>
    rw [statements?] at h
    split at h
    · cases h
      simp
    · obtain ⟨⟨s, rest⟩, hs, h⟩ := Option.bind_eq_some_iff.1 h
      obtain ⟨ss', hss, h⟩ := Option.bind_eq_some_iff.1 h
      cases h
      exact List.forall_mem_cons.2 ⟨plain_of_statement? hs, ih hss⟩

theorem plain_sections {ss : List Statement} (h : ∀ s ∈ ss, s.Plain) :
    (∀ p ∈ (sections ss).1, p.2.Plain) ∧
      ∀ section' ∈ (sections ss).2, ∀ p ∈ section'.2, p.2.Plain := by
  induction ss with
  | nil => simp [sections]
  | cons s ss ih =>
    rw [List.forall_mem_cons] at h
    obtain ⟨hpairs, hlater⟩ := ih h.2
    cases s with
    | pair path value => exact ⟨List.forall_mem_cons.2 ⟨h.1, hpairs⟩, hlater⟩
    | header header => exact ⟨by simp [sections], List.forall_mem_cons.2 ⟨hpairs, hlater⟩⟩

theorem PlainTable.define? {root out : Entries} (hr : PlainTable root)
    {s : Header × List (KeyPath × Tree)} (hs : ∀ p ∈ s.2, p.2.Plain)
    (h : define? root s = some out) : PlainTable out := by
  obtain ⟨header, pairs⟩ := s
  cases header with
  | table path =>
    obtain ⟨k, -, h⟩ := Option.bind_eq_some_iff.1 h
    exact hr.modify? (fun he h => he.openTable? hs h) h
  | element path =>
    obtain ⟨k, -, h⟩ := Option.bind_eq_some_iff.1 h
    exact hr.modify? (fun he h => he.appendTable? hs h) h

theorem PlainTable.foldlM_define? {later : List (Header × List (KeyPath × Tree))}
    (hl : ∀ s ∈ later, ∀ p ∈ s.2, p.2.Plain) {root out : Entries} (hr : PlainTable root)
    (h : later.foldlM Toml.define? root = some out) : PlainTable out := by
  induction later generalizing root with
  | nil =>
    cases h
    exact hr
  | cons s later ih =>
    rw [List.forall_mem_cons] at hl
    obtain ⟨mid, hmid, h⟩ := Option.bind_eq_some_iff.1 h
    exact ih hl.2 (hr.define? hl.1 hmid) h

theorem plain_of_parse? {text : String} {t : Tree} (h : parse? text = some t) : t.Plain := by
  unfold parse? at h
  obtain ⟨ss, hss, h⟩ := Option.bind_eq_some_iff.1 h
  obtain ⟨start, hstart, h⟩ := Option.bind_eq_some_iff.1 h
  obtain ⟨root, hroot, h⟩ := Option.bind_eq_some_iff.1 h
  cases h
  obtain ⟨hpairs, hlater⟩ := plain_sections (plain_of_statements? hss)
  exact (plainTable_nil.fill? hpairs hstart).foldlM_define? hlater hroot

end Toml

/-! ## Documents -/

/-- **Every document is a plain tree.** -/
theorem plain_of_loadDocument {files : FileReader} {path : String} {t : Tree}
    (h : loadDocument files path = .ok t) : t.Plain := by
  unfold loadDocument at h
  obtain ⟨text, -, h⟩ := Outcome.bind_eq_ok.1 h
  rw [Outcome.mapError_eq_ok] at h
  unfold DocumentFormat.parse at h
  split at h
  · exact Json.plain_of_parse (Outcome.mapError_eq_ok.1 h)
  · cases hp : Toml.parse? text with
    | none => simp [hp] at h
    | some t' =>
      rw [hp] at h
      cases h
      exact Toml.plain_of_parse? hp
  · cases hp : Yaml.parse? text with
    | none => simp [hp] at h
    | some t' =>
      rw [hp] at h
      cases h
      exact Yaml.plain_of_parse? hp

end ConfigOverlay
