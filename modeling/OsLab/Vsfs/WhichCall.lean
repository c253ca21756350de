import OsLab.Vsfs.Dump

/-!
# Which operation took place?

The simulator prints the states and asks for the calls between them. The question has one answer:
the states before and after a call tell which call it was, up to names of the same file.

* **`Lettered`** -- with the names and data of the generator, every state prints readably.
* **`Store.Alike.children`**, **`Store.Alike.mem_dirs`** -- stores that are alike have the same tree
  and the same directories.
* **`Edits`**, **`exists_edit`** -- a call is one edit of the graph, and different edits leave
  different graphs.
* **`SameCall`**, **`sameCall`** -- calls between states that are alike are the same, but for a
  file's other names.
* **`dump_tells_calls`** -- so the printed states of a run tell its calls.
-/

namespace OsLab.Vsfs

variable {s t s' t' : Fs} {g h g' h' : LinkGraph Nat Str} {op op' : Op} {rc : Int}
  {p q n : Str} {i j d b : Nat} {block : Block} {v w : Store}

/-! ## States that can be read -/

/-- The names in the directories are made by `makeName`, and no data has a bracket in it. -/
structure Lettered (s : Fs) (g : LinkGraph Nat Str) : Prop where
  names : ∀ j, ∀ e ∈ g.children j, Made e.1
  data : ∀ block ∈ s.data, block.ftype = .f → ']' ∉ block.data

theorem fresh_lettered (numInodes numData : Nat) :
    Lettered (fresh numInodes numData) rootGraph where
  names _ _ he := absurd he (Multiset.notMem_zero _)
  data block hblock hfile := by
    obtain ⟨b, hb⟩ := List.mem_iff_getElem?.mp hblock
    rcases fresh_block hb with ⟨_, rfl⟩ | ⟨_, rfl⟩ <;> cases hfile

theorem names_enter (hg : ∀ j, ∀ e ∈ g.children j, Made e.1) (hn : Made n) :
    ∀ j, ∀ e ∈ g.enter d n i j, Made e.1 := by
  intro j e he
  rcases LinkGraph.mem_enter.mp he with ⟨_, rfl⟩ | hold
  · exact hn
  · exact hg j e hold

theorem letter_ne_bracket {data : Str} (h : ∃ k < 26, data = [Char.ofNat ('a'.toNat + k)]) :
    ']' ∉ data := by
  obtain ⟨k, hk, rfl⟩ := h
  have hall : ∀ k < 26, ']' ∉ [Char.ofNat ('a'.toNat + k)] := by decide
  exact hall k hk

/-- A call with a letter for a name leaves letters. -/
theorem Lettered.run (hl : Lettered s g) (hs : Consistent s g) (hmade : op.Made)
    (hran : Ran s g op rc t g') : Lettered t g' := by
  -- a block of another type has no data to show
  have hother : ∀ {block : Block}, block.ftype ≠ .f → block.ftype = .f → ']' ∉ block.data :=
    fun hne heq => absurd heq hne
  cases hran with
  | failed => exact hl
  | creat _ _ hdir _ _ _ =>
    exact ⟨names_enter hl.names hmade, forall_mem_set hl.data (hother hdir.ne_file)⟩
  | mkdir _ _ hdir _ _ _ _ _ =>
    exact ⟨names_enter hl.names hmade, forall_mem_set
      (forall_mem_set hl.data (hother (by simp [newDirBlock]))) (hother hdir.ne_file)⟩
  | link _ _ hdir _ _ _ =>
    exact ⟨names_enter hl.names hmade, forall_mem_set hl.data (hother hdir.ne_file)⟩
  | @unlink q n d b i inode block v rest _ _ _ _ hfile hdrop hblock hrest _ =>
    constructor
    · intro j e he
      refine hl.names j e ?_
      have henter := LinkGraph.enter_unlink hrest
      rw [← henter, LinkGraph.mem_enter]
      exact Or.inr he
    · have hdir : (block.removeEntry n).ftype ≠ .f := by
        rw [show (block.removeEntry n).ftype = .d from hblock]
        simp
      refine forall_mem_set ?_ (hother hdir)
      rcases dropLink_inodes hs hfile hdrop with ⟨_, hdata⟩ | ⟨_, hdata | ⟨ab, ablock, _, _, hdata⟩⟩
      · exact hdata ▸ hl.data
      · exact hdata ▸ hl.data
      · exact hdata ▸ forall_mem_set hl.data (hother (by simp))
  | append _ _ _ _ _ data =>
    exact ⟨hl.names, forall_mem_set hl.data fun _ => letter_ne_bracket hmade⟩

theorem made_plain (hn : Made n) (i : Nat) : PlainEntry (n, i) := by
  obtain ⟨c, hc, rfl⟩ := hn
  have hblank : ' ' ≠ c := (ne_of_mem_of_not_mem hc (by decide)).symm
  have hcomma : ',' ≠ c := (ne_of_mem_of_not_mem hc (by decide)).symm
  have hbracket : ']' ≠ c := (ne_of_mem_of_not_mem hc (by decide)).symm
  simp [PlainEntry, hblank, hcomma, hbracket]

/-- A directory's block belongs to a directory of the graph. -/
theorem Consistent.dirBlock_of (hs : Consistent s g) (hb : s.data[b]? = some block)
    (htype : block.ftype = .d) : ∃ d, DirBlock g d block := by
  obtain ⟨d, inode, hinode, haddr⟩ := hs.storage.owned b ⟨block, hb, by simp [htype]⟩
  obtain ⟨block', hblock', htype'⟩ := hs.storage.addr_block d inode b hinode haddr
  obtain rfl := Option.some.inj (hb.symm.trans hblock')
  obtain ⟨c, block'', hc, hblock'', hdir⟩ :=
    hs.represents.dir d inode hinode (htype'.symm.trans htype)
  obtain rfl := Option.some.inj (haddr.symm.trans hc)
  obtain rfl := Option.some.inj (hb.symm.trans hblock'')
  exact ⟨d, hdir⟩

/-- With letters for names the state can be read off its text. -/
theorem Lettered.readable (hl : Lettered s g) (hs : Consistent s g) : s.toStore.Readable := by
  intro block hmem
  refine ⟨fun htype => ?_, hl.data block hmem⟩
  obtain ⟨b, hb⟩ := List.mem_iff_getElem?.mp hmem
  obtain ⟨d, hdir⟩ := hs.dirBlock_of hb htype
  obtain ⟨kids, hlist, hchildren, _⟩ := hdir.entries
  rw [hlist]
  simp only [List.forall_mem_cons]
  refine ⟨by simp [PlainEntry, dotName], by simp [PlainEntry, dotDotName], fun e he => ?_⟩
  have hmade : Made e.1 := hl.names d e (by rw [hchildren]; exact he)
  exact made_plain hmade e.2

/-! ## The same tree -/

theorem Store.Alike.kind (ha : v.Alike w) (hr : Represents v g) (hr' : Represents w h) :
    g.kind = h.kind := by
  funext i
  cases hv : v.inodes[i]? with
  | none =>
    have hw : w.inodes[i]? = none := by
      rw [List.getElem?_eq_none_iff] at hv ⊢
      exact ha.inodes_length ▸ hv
    rw [hr.outside i hv, hr'.outside i hw]
  | some x =>
    obtain ⟨hlt, _⟩ := List.getElem?_eq_some_iff.mp hv
    obtain ⟨y, hw⟩ : ∃ y, w.inodes[i]? = some y :=
      ⟨_, List.getElem?_eq_getElem (ha.inodes_length ▸ hlt)⟩
    rw [hr.kind i x hv, hr'.kind i y hw, (ha.inode i x y hv hw).1]

/-- A directory has the same entries in both, in the same order. -/
theorem Store.Alike.exists_kids (ha : v.Alike w) (hr : Represents v g) (hr' : Represents w h)
    (hdir : g.kind i = some .dir) : ∃ kids : List (Str × Nat), g.children i = kids ∧
      h.children i = kids ∧ v.dirEntries i = w.dirEntries i := by
  have hdir' : h.kind i = some .dir := ha.kind hr hr' ▸ hdir
  obtain ⟨⟨_, _, _⟩, b, block, hinode, rfl, rfl, hblock, hd⟩ := hr.exists_dir hdir
  obtain ⟨⟨_, _, _⟩, b', block', hinode', rfl, rfl, hblock', hd'⟩ := hr'.exists_dir hdir'
  obtain rfl : b = b' := Option.some.inj ((ha.inode i _ _ hinode hinode').2 (by simp))
  have hsame := ha.entries b block block' hblock hblock' hd.ftype hd'.ftype
  obtain ⟨kids, hlist, hchildren, _⟩ := hd.entries
  obtain ⟨kids', hlist', hchildren', _⟩ := hd'.entries
  obtain rfl : kids = kids' := by
    rw [hlist, hlist'] at hsame
    exact (List.cons.inj (List.cons.inj hsame).2).2
  refine ⟨kids, hchildren, hchildren', ?_⟩
  simp only [Store.dirEntries, hinode, hblock, hinode', hblock', hsame]

/-- The graphs that two stores that are alike represent have the same children. -/
theorem Store.Alike.children (ha : v.Alike w) {nodes : Finset Nat} (hr : Represents v g)
    (hr' : Represents w h) (hg : g.WellLinked nodes ROOT) (hh : h.WellLinked nodes ROOT) :
    g.children = h.children := by
  funext i
  by_cases hdir : g.kind i = some .dir
  · obtain ⟨kids, hchildren, hchildren', _⟩ := ha.exists_kids hr hr' hdir
    rw [hchildren, hchildren']
  · rw [hg.source i hdir, hh.source i (ha.kind hr hr' ▸ hdir)]

theorem Store.Alike.dirEntries (ha : v.Alike w) (hr : Represents v g) (hr' : Represents w h)
    (i : Nat) : v.dirEntries i = w.dirEntries i := by
  by_cases hdir : g.kind i = some .dir
  · obtain ⟨_, _, _, hentries⟩ := ha.exists_kids hr hr' hdir
    exact hentries
  · rw [(lists hr).other i hdir, (lists hr').other i (ha.kind hr hr' ▸ hdir)]

/-- A path leads to the same inode in both. -/
theorem Store.Alike.walk (ha : v.Alike w) (hr : Represents v g) (hr' : Represents w h) (i : Nat)
    (cs : List Str) : v.walk i cs = w.walk i cs := by
  induction cs generalizing i with
  | nil => rfl
  | cons c cs ih => simp only [Store.walk, ha.dirEntries hr hr', ih]

/-- The listed directories are the same, with the same inodes. -/
theorem Store.Alike.mem_dirs (ha : s.toStore.Alike s'.toStore) (hs : Consistent s g)
    (hs' : Consistent s' h) (hl : Listed s g) (hq : q ∈ s'.dirs) :
    q ∈ s.dirs ∧ s.nameToInum q = s'.nameToInum q := by
  obtain ⟨cs, i, inode', hcs, rfl, hwalk, hinode', htype'⟩ := dirs_leads hs' hq
  rw [← ha.walk hs.represents hs'.represents] at hwalk
  obtain ⟨hname, hlisted⟩ := listed_of_walk hs hl hcs hwalk
  obtain ⟨k, hk, hkwalk⟩ := names_ok hs' (Or.inr hq)
  rw [components_dirPath fun c hc => (hcs c hc).1, ← ha.walk hs.represents hs'.represents,
    hwalk] at hkwalk
  refine ⟨hlisted.resolve_left fun hfile => ?_, by rw [hname, hk, hkwalk]⟩
  -- a file there is none here
  obtain ⟨k', hk', hkind, _⟩ := hs.paths.files _ hfile
  obtain rfl : i = k' := Option.some.inj (hname.symm.trans hk')
  have hdir : h.kind i = some .dir := by
    rw [hs'.represents.kind i inode' hinode', htype']
    rfl
  rw [ha.kind hs.represents hs'.represents, hdir] at hkind
  cases hkind

/-! ## The call and its edit -/

/-- The same call, but for the name by which a file is called: which of its names is linked or
written to does not show. -/
def SameCall (v : Store) : Op → Op → Prop
  | .creat q n, .creat q' n' => q = q' ∧ n = n'
  | .mkdir q n, .mkdir q' n' => q = q' ∧ n = n'
  | .link q n p, .link q' n' p' => (q = q' ∧ n = n') ∧ v.resolve p = v.resolve p'
  | .unlink p, .unlink p' => p = p'
  | .append p data, .append p' data' => v.resolve p = v.resolve p' ∧ data = data'
  | _, _ => False

/-- The edit of the graph that the call stands for. -/
inductive Edits (s : Fs) : Op → LinkGraph.Edit Nat Str → Prop where
  | creat {q n : Str} {d i : Nat} (hq : q ∈ s.dirs) (hd : s.nameToInum q = some d) :
      Edits s (.creat q n) (.add .file d n i)
  | mkdir {q n : Str} {d i : Nat} (hq : q ∈ s.dirs) (hd : s.nameToInum q = some d) :
      Edits s (.mkdir q n) (.add .dir d n i)
  | link {p q n : Str} {d i : Nat} (hq : q ∈ s.dirs) (hd : s.nameToInum q = some d)
      (hp : p ∈ s.files) (hi : s.nameToInum p = some i) : Edits s (.link q n p) (.add .link d n i)
  | unlink {q n : Str} {d i : Nat} (hq : q ∈ s.dirs) (hd : s.nameToInum q = some d) :
      Edits s (.unlink (Fs.fullName q n)) (.unlink d n i)
  | append (p data : Str) : Edits s (.append p data) .keep

/-- A successful call is one edit of the graph. -/
theorem exists_edit (hs : Consistent s g) (hran : Ran s g op 0 t g') :
    ∃ e, Edits s op e ∧ e.Makes g g' := by
  cases hran with
  | creat hq hn hdir hcan hi hunused =>
    exact ⟨_, .creat hq hdir.name, hs.represents.kind_none hunused, rfl⟩
  | mkdir hq hn hdir hcan hi hunused hfb hfree =>
    exact ⟨_, .mkdir hq hdir.name, hs.represents.kind_none hunused, rfl⟩
  | link hq hn hdir hcan hp hfile => exact ⟨_, .link hq hdir.name hp hfile.name, hfile.kind, rfl⟩
  | unlink hq hn hname hp hfile hdrop hblock hrest ht =>
    exact ⟨_, .unlink hq hname, _, hrest, rfl⟩
  | append hp hfile haddr hfb hfree data => exact ⟨_, .append _ _, rfl⟩

theorem Store.Alike.numInodes (ha : v.Alike w) (hv : Storage v) (hw : Storage w) :
    v.numInodes = w.numInodes := by
  rw [← hv.inodes_length, ha.inodes_length, hw.inodes_length]

/-- Of two calls that leave the entries alone, the inode that has got a block tells the file, and
the block tells the data. -/
theorem same_append {p' data data' : Str} (hs : Consistent s g) (hs' : Consistent s' h)
    (ha : s.toStore.Alike s'.toStore) (hb : t.toStore.Alike t'.toStore)
    (hran : Ran s g (.append p data) 0 t g') (hran' : Ran s' h (.append p' data') 0 t' h') :
    s.resolve p = s.resolve p' ∧ data = data' := by
  have hwalk : s.resolve p' = s'.resolve p' := ha.walk hs.represents hs'.represents ROOT _
  cases hran with
  | @append p i fb inode fblock hp hfile haddr hfb hfree data =>
    cases hran' with
    | @append p' i' fb' inode' fblock' hp' hfile' haddr' hfb' hfree' data' =>
      rw [hwalk, resolve_eq hs hp, resolve_eq hs' hp', hfile.name, hfile'.name]
      have hnew : (s.inodes.set i { inode with addr := some fb })[i]? =
          some { inode with addr := some fb } := by
        rw [getElem?_set_of_some hfile.inodes_eq, if_pos rfl]
      have hnew' := getElem?_set_of_some hfile'.inodes_eq { inode' with addr := some fb' }
      have hii : i = i' := by
        by_contra hne
        -- the inode `i` has no block before the calls, and one after them only on one side
        obtain ⟨hlt, _⟩ := List.getElem?_eq_some_iff.mp hfile.inodes_eq
        obtain ⟨y, hy⟩ : ∃ y, s'.inodes[i]? = some y :=
          ⟨_, List.getElem?_eq_getElem (ha.inodes_length ▸ hlt)⟩
        have hbefore := (ha.inode i inode y hfile.inodes_eq hy).2 hfile.live
        have hy' : (s'.inodes.set i' { inode' with addr := some fb' })[i]? = some y := by
          rw [hnew', if_neg (Ne.symm hne), hy]
        have hafter := (hb.inode i _ y hnew hy').2 hfile.live
        rw [← hbefore, haddr] at hafter
        cases hafter
      subst hii
      refine ⟨rfl, ?_⟩
      have hself := (hnew' i).trans (if_pos rfl)
      obtain rfl : fb = fb' := Option.some.inj ((hb.inode i _ _ hnew hself).2 hfile.live)
      have hdata : (s.data.set fb (newDataBlock fblock data))[fb]? =
          some (newDataBlock fblock data) := by
        rw [getElem?_set_of_some hfb, if_pos rfl]
      have hdata' : (s'.data.set fb (newDataBlock fblock' data'))[fb]? =
          some (newDataBlock fblock' data') := by
        rw [getElem?_set_of_some hfb', if_pos rfl]
      exact hb.data fb _ _ hdata hdata' rfl rfl

/-- Between states that are alike, before and behind, two calls are the same: a different edit would
show. -/
theorem sameCall (hs : Consistent s g) (hs' : Consistent s' h) (hl : Listed s g)
    (ha : s.toStore.Alike s'.toStore) (hb : t.toStore.Alike t'.toStore)
    (hran : Ran s g op 0 t g') (hran' : Ran s' h op' 0 t' h') : SameCall s.toStore op op' := by
  have ht := hran.consistent hs
  have ht' := hran'.consistent hs'
  obtain ⟨e, hedits, hmakes⟩ := exists_edit hs hran
  obtain ⟨e', hedits', hmakes'⟩ := exists_edit hs' hran'
  have hwell := hs'.wellLinked
  rw [← ha.numInodes hs.storage hs'.storage] at hwell
  have hwell' := ht'.wellLinked
  rw [← hb.numInodes ht.storage ht'.storage] at hwell'
  have hee : e = e' := LinkGraph.Edit.eq_of_same (ha.kind hs.represents hs'.represents)
    (ha.children hs.represents hs'.represents hs.wellLinked hwell)
    (hb.kind ht.represents ht'.represents)
    (hb.children ht.represents ht'.represents ht.wellLinked hwell') hmakes hmakes'
  -- a directory is listed under one path
  have hpath : ∀ {q q' d}, q ∈ s.dirs → s.nameToInum q = some d → q' ∈ s'.dirs →
      s'.nameToInum q' = some d → q = q' := by
    intro q q' d hq hd hq' hd'
    obtain ⟨hmem, hname⟩ := ha.mem_dirs hs hs' hl hq'
    exact hs.paths.inj q hq q' hmem (hd.trans (hname.trans hd').symm)
  subst hee
  cases hedits with
  | creat hq hd =>
    cases hedits' with
    | creat hq' hd' => exact ⟨hpath hq hd hq' hd', rfl⟩
  | mkdir hq hd =>
    cases hedits' with
    | mkdir hq' hd' => exact ⟨hpath hq hd hq' hd', rfl⟩
  | @link p q n d i hq hd hp hi =>
    cases hedits' with
    | @link p' q' _ _ _ hq' hd' hp' hi' =>
      refine ⟨⟨hpath hq hd hq' hd', rfl⟩, ?_⟩
      have hwalk : s.resolve p' = s'.resolve p' := ha.walk hs.represents hs'.represents ROOT _
      rw [hwalk, resolve_eq hs hp, resolve_eq hs' hp', hi, hi']
  | unlink hq hd =>
    cases hedits' with
    | unlink hq' hd' =>
      show Fs.fullName _ _ = Fs.fullName _ _
      rw [hpath hq hd hq' hd']
  | append p data =>
    cases hedits' with
    | append p' data' => exact same_append hs hs' ha hb hran hran'

/-! ## The exercise -/

/-- The same call does the same: a file's names all look up its inode. -/
theorem SameCall.run_eq (hs : Consistent s g) (hop : op.Drawn s) (hop' : op'.Drawn s)
    (hsame : SameCall s.toStore op op') : op.run s = op'.run s := by
  have hname : ∀ {p p'}, p ∈ s.files → p' ∈ s.files → s.resolve p = s.resolve p' →
      s.lookupName p = s.lookupName p' := by
    intro p p' hp hp' heq
    rw [resolve_eq hs hp, resolve_eq hs hp'] at heq
    simp only [Fs.lookupName, heq]
  cases op with
  | creat q n =>
    cases op' with
    | creat q' n' => rw [hsame.1, hsame.2]
    | _ => exact hsame.elim
  | mkdir q n =>
    cases op' with
    | mkdir q' n' => rw [hsame.1, hsame.2]
    | _ => exact hsame.elim
  | unlink p =>
    cases op' with
    | unlink p' => rw [show p = p' from hsame]
    | _ => exact hsame.elim
  | link q n p =>
    cases op' with
    | link q' n' p' =>
      obtain ⟨⟨rfl, rfl⟩, hp⟩ := hsame
      -- Without a file no path is drawn, and the call does nothing.
      by_cases hnil : s.files = []
      · exact (doLink_nil hnil).trans (doLink_nil hnil).symm
      -- Otherwise only the inode that the path leads to matters.
      · have hlookup := hname (hop.2 hnil) (hop'.2 hnil) hp
        simp only [Op.run, Fs.doLink, Fs.createLink, hlookup]
    | _ => exact hsame.elim
  | append p data =>
    cases op' with
    | append p' data' =>
      obtain ⟨hp, rfl⟩ := hsame
      by_cases hnil : s.files = []
      · exact (doAppend_nil hnil).trans (doAppend_nil hnil).symm
      · have hlookup := hname (hop hnil) (hop' hnil) hp
        simp only [Op.run, Fs.doAppend, Fs.writeFile, hlookup]
    | _ => exact hsame.elim

/-- Call by call the same, from `s` on. -/
def SameCalls : Fs → List (Op × Fs) → List (Op × Fs) → Prop
  | _, [], [] => True
  | s, (op, t) :: steps, (op', _) :: steps' => SameCall s.toStore op op' ∧ SameCalls t steps steps'
  | _, _, _ => False

/-- States that are reached with made names are consistent, listed and lettered. -/
theorem lettered_reachable {numInodes numData : Nat}
    (hreach : ((workload numInodes numData).restrict fun _ op => op.Made).Reachable s) :
    ∃ g, Consistent s g ∧ Listed s g ∧ Lettered s g := by
  refine ran_invariant_of (I := fun s g => Listed s g ∧ Lettered s g)
    ⟨fresh_listed numInodes numData, fresh_lettered numInodes numData⟩ ?_ hreach
  rintro s g op rc t g' hs ⟨hl, hlettered⟩ hmade hran
  exact ⟨hl.run hs hran, hlettered.run hs hmade hran⟩

/-- Call by call, two runs that print the same are the same; by induction along both. -/
theorem sameCalls {steps steps' : List (Op × Fs)} (hs : Consistent s g) (hs' : Consistent s' h)
    (hl : Listed s g) (hlet : Lettered s g) (hlet' : Lettered s' h) (hdump : s.dump = s'.dump)
    (hsteps : Steps s steps) (hsteps' : Steps s' steps') (hmade : ∀ x ∈ steps, x.1.Made)
    (hmade' : ∀ x ∈ steps', x.1.Made)
    (hdumps : steps.map (·.2.dump) = steps'.map (·.2.dump)) : SameCalls s steps steps' := by
  induction hsteps generalizing s' g h steps' with
  | nil s =>
    cases hsteps' with
    | nil => trivial
    | cons _ _ _ => cases hdumps
  | @cons s t op steps hop hrun rest ih =>
    cases hsteps' with
    | nil => cases hdumps
    | @cons _ t' op' steps' hop' hrun' rest' =>
      rw [List.forall_mem_cons] at hmade hmade'
      obtain ⟨htdump, hrest⟩ := List.cons.inj hdumps
      obtain ⟨g', hran⟩ := hs.ran_of_run hop hrun
      obtain ⟨h', hran'⟩ := hs'.ran_of_run hop' hrun'
      have ht := hran.consistent hs
      have ht' := hran'.consistent hs'
      have htlet := hlet.run hs hmade.1 hran
      have htlet' := hlet'.run hs' hmade'.1 hran'
      have ha := alike_of_dump (hlet.readable hs) (hlet'.readable hs') hdump
      have hb := alike_of_dump (htlet.readable ht) (htlet'.readable ht') htdump
      exact ⟨sameCall hs hs' hl ha hb hran hran',
        ih ht ht' (hl.run hs hran) htlet htlet' htdump rest' hmade.2 hmade'.2 hrest⟩

/-- **The printed states tell the calls.** Two runs that print the same states have made the same
calls, and calls from one state print the same exactly if they are the same: but for a file's other
names, the question has one answer. -/
theorem dump_tells_calls {numInodes numData numInodes' numData' : Nat} {s : Fs}
    (hreach : ((workload numInodes numData).restrict fun _ op => op.Made).Reachable s) :
    (∀ s', ((workload numInodes' numData').restrict fun _ op => op.Made).Reachable s' →
      s.dump = s'.dump → ∀ steps steps', Steps s steps → Steps s' steps' →
        (∀ x ∈ steps, x.1.Made) → (∀ x ∈ steps', x.1.Made) →
        steps.map (·.2.dump) = steps'.map (·.2.dump) → SameCalls s steps steps') ∧
    ∀ op op' t t', op.Drawn s → op'.Drawn s → op.Made → op'.Made → op.run s = .ok (0, t) →
      op'.run s = .ok (0, t') → (t.dump = t'.dump ↔ SameCall s.toStore op op') := by
  obtain ⟨g, hs, hl, hlet⟩ := lettered_reachable hreach
  constructor
  · intro s' hreach' hdump steps steps' hsteps hsteps' hmade hmade' hdumps
    obtain ⟨h, hs', _, hlet'⟩ := lettered_reachable hreach'
    exact sameCalls hs hs' hl hlet hlet' hdump hsteps hsteps' hmade hmade' hdumps
  · intro op op' t t' hop hop' hmade hmade' hrun hrun'
    constructor
    · intro hdump
      exact (sameCalls hs hs hl hlet hlet rfl (.cons hop hrun (.nil t)) (.cons hop' hrun' (.nil t'))
        (by simpa using hmade) (by simpa using hmade') (by simpa using hdump)).1
    · intro hsame
      cases hrun.symm.trans ((hsame.run_eq hs hop hop').trans hrun')
      rfl

/-- Files of different names print differently. -/
theorem dump_tells_calls_names :
    ∃ t t', (Op.creat ['/'] ['a']).run (fresh 2 2) = .ok (0, t) ∧
      (Op.creat ['/'] ['b']).run (fresh 2 2) = .ok (0, t') ∧ t.dump ≠ t'.dump := by
  have hreach : ((workload 2 2).restrict fun _ op => op.Made).Reachable (fresh 2 2) :=
    Lts.Reachable.of_init (new_ok (by decide) (by decide))
  have hroot : ['/'] ∈ (fresh 2 2).dirs := List.mem_singleton_self _
  refine ⟨_, _, rfl, rfl, fun hdump => ?_⟩
  have hsame := ((@dump_tells_calls 2 2 2 2 _ hreach).2 (.creat ['/'] ['a'])
    (.creat ['/'] ['b']) _ _ ⟨hroot, by decide, by decide⟩ ⟨hroot, by decide, by decide⟩
    ⟨'a', by decide, rfl⟩ ⟨'b', by decide, rfl⟩ rfl rfl).mp hdump
  exact absurd hsame.2 (by decide)

end OsLab.Vsfs
