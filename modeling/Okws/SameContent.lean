import Okws.Getchunk

/-! `local_publisher_t::getfile` over `srv_cache_t`: a file that was parsed is found by the hash of
its content, and has the name by which it was parsed. -/

universe u v

namespace Okws

namespace SrvCache

variable {H : Type u} [DecidableEq H] (sha1 : Str → H) (jail2real : Str → Str)

structure Told (s : SrvCache H) : Prop where
  timeout : s.lookupCache.timeout = 0
  rejuvenates : s.lookupCache.rejuvenates = false
  there : ∀ o ∈ s.lookupCache.vals, s.file2hash sha1 (jail2real o.jfn) = some o.hash
  missing : ∀ o ∈ s.noentCache.vals, s.file2hash sha1 (jail2real o.jfn) = none

variable {sha1 jail2real} {s : SrvCache H}

omit [DecidableEq H] in
theorem Told.lookup (h : s.Told sha1 jail2real) (jfn : Str) :
    (s.lookup jfn).2.Told sha1 jail2real ∧ ∀ r, (s.lookup jfn).1 = some r →
      r.map Prod.fst = s.file2hash sha1 (jail2real jfn) := by
  unfold SrvCache.lookup
  rw [Timehash.get_of_timeout h.timeout h.rejuvenates]
  cases hfind : s.lookupCache.find jfn with
  | some o =>
    obtain ⟨ho, hk⟩ := Timehash.find_eq_some.mp hfind
    refine ⟨h, ?_⟩
    rintro r ⟨⟩
    rw [← hk]
    exact (h.there o ho).symm
  | none =>
    refine ⟨⟨h.timeout, h.rejuvenates, h.there, ?_⟩, ?_⟩
    · intro o ho
      exact h.missing o (Timehash.vals_rejuvenate_subset ho)
    · intro r hr
      dsimp only at hr
      split at hr
      · next hfound =>
        cases hr
        obtain ⟨o, ho, hk⟩ := Timehash.mem_keys.mp (Timehash.rejuvenate_fst.mp hfound)
        rw [← hk]
        exact (h.missing o ho).symm
      · cases hr

theorem Told.cacheLookup (h : s.Told sha1 jail2real) (jfn : Str) (ctime sz : Nat) :
    (s.cacheLookup jfn (jail2real jfn) (s.file2hash sha1 (jail2real jfn)) ctime sz).Told
      sha1 jail2real := by
  unfold SrvCache.cacheLookup
  rw [Timehash.get_of_timeout h.timeout h.rejuvenates]
  dsimp only
  cases hhash : s.file2hash sha1 (jail2real jfn) with
  | some hsh =>
    dsimp only
    have hins : ∀ o ∈ (s.lookupCache.insert s.now ⟨jfn, jail2real jfn, hsh, ctime, sz⟩).vals,
        s.file2hash sha1 (jail2real o.jfn) = some o.hash := by
      intro o ho
      obtain rfl | ho := Timehash.vals_insert_subset ho
      · exact hhash
      · exact h.there o ho
    split
    · split
      · exact ⟨Timehash.insert_timeout.trans h.timeout,
          Timehash.insert_rejuvenates.trans h.rejuvenates, hins, h.missing⟩
      · exact ⟨Timehash.insert_timeout.trans h.timeout,
          Timehash.insert_rejuvenates.trans h.rejuvenates, hins, h.missing⟩
    · exact h
  | none =>
    dsimp only
    have hmiss : ∀ o ∈ (if (s.noentCache.get s.now jfn).1.isSome then
          (s.noentCache.get s.now jfn).2
        else (s.noentCache.get s.now jfn).2.insert s.now ⟨jfn, jail2real jfn⟩).vals,
        s.file2hash sha1 (jail2real o.jfn) = none := by
      intro o ho
      split at ho
      · exact h.missing o (Timehash.vals_get_subset ho)
      · obtain rfl | ho := Timehash.vals_insert_subset ho
        · exact hhash
        · exact h.missing o (Timehash.vals_get_subset ho)
    split
    · refine ⟨Timehash.remove_timeout.trans h.timeout,
        Timehash.remove_rejuvenates.trans h.rejuvenates, ?_, hmiss⟩
      intro o ho
      exact h.there o ((Timehash.mem_vals_remove h.timeout).mp ho).1
    · exact ⟨h.timeout, h.rejuvenates, h.there, hmiss⟩

end SrvCache

namespace Pubd

variable {H : Type u} {Z : Type v} [DecidableEq H] (sha1 : Str → H) (jail2real : Str → Str)
  (parse : PubScan → Str → Str → UInt32 → Option Z × PubScan)

section Calls

variable (s : Pubd H Z) (jfn : Str) (o : UInt32)

/-- What the parser makes of the content of a file, if it is there and parses. -/
def parsed : Option Z := (s.srv.files (jail2real jfn)).bind fun f =>
  if f.regular then (parse {} jfn f.content (opMask o)).1 else none

/-- The answer to `getfile` is a file of this name with the parse of its content, and there is one
exactly if the file is there and parses. -/
structure Right : Prop where
  file : ∀ f, (s.publish sha1 jail2real parse jfn .none o).1 = .ok f →
    f.jfn = jfn ∧ s.parsed jail2real parse jfn o = some f.dataRoot
  status : (∃ f, (s.publish sha1 jail2real parse jfn .none o).1 = .ok f) ↔
    (s.parsed jail2real parse jfn o).isSome

/-- A file of another name is in the cache, whose content has the same hash, with the same
`P_NOPARSE`. -/
def Shadowed : Prop := ∃ f ∈ s.held.vals, f.jfn ≠ jfn ∧
  s.srv.file2hash sha1 (jail2real jfn) = some f.hash ∧ opMask f.opts = opMask o

end Calls

/-- What happens to `pubd` while the files stay what they are. -/
inductive Call
  | getfile (jfn : Str) (opts : UInt32)
  | advance (secs : Nat)

def call (s : Pubd H Z) : Call → Pubd H Z
  | .getfile jfn o => (s.publish sha1 jail2real parse jfn .none o).2
  | .advance secs => { s with srv := { s.srv with now := s.srv.now + secs } }

/-- No file ended inside of brackets, braces, a tag or a regular expression before. -/
def AtRest (s : Pubd H Z) : Call → Prop
  | .getfile _ _ => s.scan = {}
  | .advance _ => True

/-- `pubd` with these files, and nothing in its caches. -/
def start (files : Str → Option PubFile) (now negCacheTimeout lifetime : Nat) : Pubd H Z where
  useCache := true
  srv :=
    { now := now
      files := files
      lookupCache := .empty 0 false
      noentCache := .empty negCacheTimeout false
      deltaSet := []
      since := fun _ => none }
  held := .empty lifetime true

def system : Lib.System (Pubd H Z) Call where
  init s := ∃ files now negCacheTimeout lifetime, s = start files now negCacheTimeout lifetime
  step s c := some (s.call sha1 jail2real parse c)

structure Told (s : Pubd H Z) : Prop where
  useCache : s.useCache = true
  rejuvenates : s.held.rejuvenates = true
  srv : s.srv.Told sha1 jail2real
  held : ∀ f ∈ s.held.vals, s.srv.file2hash sha1 (jail2real f.jfn) = some f.hash ∧
    s.parsed jail2real parse f.jfn f.opts = some f.dataRoot

variable {sha1 jail2real parse} {s t : Pubd H Z} {jfn : Str} {o : UInt32}

omit [DecidableEq H] in
theorem told_start (files : Str → Option PubFile) (now negCacheTimeout lifetime : Nat) :
    Told sha1 jail2real parse (start files now negCacheTimeout lifetime : Pubd H Z) :=
  ⟨rfl, rfl, ⟨rfl, rfl, nofun, nofun⟩, nofun⟩

omit [DecidableEq H] in
theorem file2hash_files {srv : SrvCache H} (hf : srv.files = s.srv.files) (rfn : Str) :
    srv.file2hash sha1 rfn = s.srv.file2hash sha1 rfn := by
  rw [SrvCache.file2hash, hf]
  rfl

omit [DecidableEq H] in
theorem parsed_files (hf : t.srv.files = s.srv.files) (jfn : Str) (o : UInt32) :
    t.parsed jail2real parse jfn o = s.parsed jail2real parse jfn o := by
  rw [parsed, hf]
  rfl

omit [DecidableEq H] in
theorem parsed_opMask {o' : UInt32} (hm : opMask o = opMask o') :
    s.parsed jail2real parse jfn o = s.parsed jail2real parse jfn o' := by
  rw [parsed, hm]
  rfl

omit [DecidableEq H] in
theorem parseFile_eq (hs : s.scan = {}) {hsh : H}
    (hh : s.srv.file2hash sha1 (jail2real jfn) = some hsh) (ctime : Nat) :
    (s.parseFile jail2real parse jfn hsh ctime o).1 =
      (s.parsed jail2real parse jfn o).map fun z =>
        { jfn := jfn, rfn := jail2real jfn, hash := hsh, ctime := ctime, dataRoot := z
          opts := opMask o } := by
  unfold parseFile parsed
  unfold SrvCache.file2hash at hh
  dsimp only
  cases hf : s.srv.files (jail2real jfn) with
  | none => rfl
  | some f =>
    rw [hf] at hh
    dsimp only at hh
    cases hr : f.regular with
    | false =>
      rw [hr] at hh
      cases hh
    | true => simp only [Option.bind_some, hr, if_true, hs]

omit [DecidableEq H] in
theorem parsed_none (hh : s.srv.file2hash sha1 (jail2real jfn) = none) :
    s.parsed jail2real parse jfn o = none := by
  unfold parsed
  unfold SrvCache.file2hash at hh
  cases hf : s.srv.files (jail2real jfn) with
  | none => rfl
  | some f =>
    rw [hf] at hh
    dsimp only at hh
    split at hh
    · cases hh
    · next hr => simp only [Option.bind_some, hr, if_false, Bool.false_eq_true]

theorem Told.findHash (h : s.Told sha1 jail2real parse) (jfn : Str) :
    ∃ r srv, s.findHash sha1 jail2real jfn = (r, { s with srv := srv }) ∧
      srv.Told sha1 jail2real ∧ srv.files = s.srv.files ∧
      r.map Prod.fst = s.srv.file2hash sha1 (jail2real jfn) := by
  obtain ⟨hlookup, hsome⟩ := h.srv.lookup jfn
  have hframe := lookup_frame s.srv jfn
  unfold Pubd.findHash
  rw [h.useCache, if_pos rfl]
  dsimp only
  cases hl : s.srv.lookup jfn with
  | mk r srv =>
    rw [hl] at hlookup hsome hframe
    cases r with
    | some r => exact ⟨r, srv, rfl, hlookup, hframe.2, hsome r rfl⟩
    | none =>
      refine ⟨_, _, rfl, hlookup.cacheLookup jfn _ _, ?_, ?_⟩
      · exact (cacheLookup_frame srv _ _ _ _ _).2.trans hframe.2
      · rw [Option.map_map, ← file2hash_files hframe.2]
        exact Option.map_id'

theorem Told.publish (h : s.Told sha1 jail2real parse) (hs : s.scan = {}) (jfn : Str)
    (o : UInt32) : ∃ r srv held scan, s.publish sha1 jail2real parse jfn .none o =
        (r, { s with srv := srv, held := held, scan := scan }) ∧
      srv.Told sha1 jail2real ∧ srv.files = s.srv.files ∧ held.rejuvenates = true ∧
      ((∃ st, r = .error st) ∧ s.parsed jail2real parse jfn o = none ∧
          held.vals ⊆ s.held.vals ∧ ¬ s.Shadowed sha1 jail2real jfn o ∨
        (∃ f ∈ s.held.vals, r = .ok f ∧ held.vals ⊆ s.held.vals ∧
          s.srv.file2hash sha1 (jail2real jfn) = some f.hash ∧ opMask f.opts = opMask o) ∨
        ∃ f, r = .ok f ∧ f.jfn = jfn ∧ s.srv.file2hash sha1 (jail2real jfn) = some f.hash ∧
          f.opts = opMask o ∧ s.parsed jail2real parse jfn o = some f.dataRoot ∧
          (∀ v ∈ held.vals, v = f ∨ v ∈ s.held.vals) ∧ ¬ s.Shadowed sha1 jail2real jfn o) := by
  obtain ⟨found, srv, hfind, hsrv, hfiles, hhash⟩ := h.findHash jfn
  unfold Pubd.publish
  rw [hfind]
  cases found with
  | none =>
    have hnone : s.srv.file2hash sha1 (jail2real jfn) = none := hhash.symm
    refine ⟨_, srv, s.held, s.scan, rfl, hsrv, hfiles, h.rejuvenates,
      .inl ⟨⟨_, rfl⟩, parsed_none hnone, List.Subset.refl _, ?_⟩⟩
    rintro ⟨f, -, -, hf, -⟩
    rw [hnone] at hf
    cases hf
  | some p =>
    obtain ⟨hsh, ctime⟩ := p
    have hsome : s.srv.file2hash sha1 (jail2real jfn) = some hsh := hhash.symm
    have hlookup : lookupFile { s with srv := srv } hsh o =
        (s.held.find (srvCacheKey hsh o), { s with
          srv := srv, held := (s.held.get srv.now (srvCacheKey hsh o)).2 }) := by
      unfold lookupFile
      rw [h.useCache, if_pos rfl]
      dsimp only
      rw [Timehash.get_of_rejuvenates h.rejuvenates]
    have hrej : (s.held.get srv.now (srvCacheKey hsh o)).2.rejuvenates = true :=
      Timehash.get_rejuvenates.trans h.rejuvenates
    dsimp only
    rw [if_neg (show ¬ (Freshcheck.unchanged hsh ctime .none = true) from nofun), hlookup]
    cases hf : s.held.find (srvCacheKey hsh o) with
    | some f =>
      obtain ⟨hmem, hk⟩ := Timehash.find_eq_some.mp hf
      have hhsh : f.hash = hsh := congrArg SrvCacheKey.filehash hk
      refine ⟨_, srv, _, s.scan, rfl, hsrv, hfiles, hrej, .inr (.inl ⟨f, hmem, rfl,
        Timehash.vals_get_subset, ?_, congrArg SrvCacheKey.opts hk⟩)⟩
      rw [hhsh, hsome]
    | none =>
      have hshadow : ¬ s.Shadowed sha1 jail2real jfn o := by
        rintro ⟨g, hg, -, hgh, hgo⟩
        rw [hsome] at hgh
        refine Timehash.find_eq_none.mp hf (Timehash.mem_keys.mpr ⟨g, hg, ?_⟩)
        change (⟨g.hash, opMask g.opts⟩ : SrvCacheKey H) = ⟨hsh, opMask o⟩
        rw [hgo, Option.some.inj hgh]
      dsimp only
      rw [parseFile_eq (s := { s with srv := srv, held := _ }) hs
        ((file2hash_files hfiles _).trans hsome), parsed_files hfiles]
      cases hz : s.parsed jail2real parse jfn o with
      | none =>
        exact ⟨_, srv, _, _, rfl, hsrv, hfiles, hrej, .inl ⟨⟨_, rfl⟩, rfl,
          Timehash.vals_get_subset, hshadow⟩⟩
      | some z =>
        simp only [Option.map_some]
        unfold cacheGetfile
        dsimp only
        rw [h.useCache, if_pos rfl]
        refine ⟨_, srv, _, _, rfl, hsrv, hfiles, Timehash.insert_rejuvenates.trans hrej,
          .inr (.inr ⟨_, rfl, rfl, hsome, rfl, rfl, ?_, hshadow⟩)⟩
        intro v hv
        obtain hv | hv := Timehash.vals_insert_subset hv
        · exact .inl hv
        · exact .inr (Timehash.vals_get_subset hv)

theorem Told.call (h : s.Told sha1 jail2real parse) {c : Call} (hs : s.AtRest c) :
    (s.call sha1 jail2real parse c).Told sha1 jail2real parse := by
  cases c with
  | advance secs => exact ⟨h.useCache, h.rejuvenates, ⟨h.srv.timeout, h.srv.rejuvenates,
      h.srv.there, h.srv.missing⟩, h.held⟩
  | getfile jfn o =>
    obtain ⟨r, srv, held, scan, heq, hsrv, hfiles, hrej, hcases⟩ := h.publish hs jfn o
    unfold Pubd.call
    dsimp only
    rw [heq]
    have hold : ∀ v ∈ s.held.vals, srv.file2hash sha1 (jail2real v.jfn) = some v.hash ∧
        Pubd.parsed jail2real parse { s with srv := srv, held := held, scan := scan } v.jfn
          v.opts =
          some v.dataRoot := by
      intro v hv
      rw [file2hash_files hfiles, parsed_files (s := s) hfiles]
      exact h.held v hv
    refine ⟨h.useCache, hrej, hsrv, fun v hv => ?_⟩
    obtain ⟨-, -, hsub, -⟩ | ⟨-, -, -, hsub, -⟩ | ⟨f, -, rfl, hhash, hopts, hz, hsub, -⟩ := hcases
    · exact hold v (hsub hv)
    · exact hold v (hsub hv)
    · obtain rfl | hv := hsub v hv
      · refine ⟨(file2hash_files hfiles _).trans hhash, ?_⟩
        rw [parsed_files (s := s) hfiles, hopts, parsed_opMask (opMask_opMask o), hz]
      · exact hold v hv

theorem told (h : (system sha1 jail2real parse).Reach AtRest s) : s.Told sha1 jail2real parse := by
  refine h.invariant (I := Told sha1 jail2real parse) ?_ fun s c t _ hi hc hs => ?_
  · rintro s ⟨files, now, negCacheTimeout, lifetime, rfl⟩
    exact told_start files now negCacheTimeout lifetime
  · cases hs
    exact hi.call hc

/-- In every run that leaves the scanner at rest, `getfile` answers right exactly where no file of
another name, with content of the same hash, is in the cache. -/
theorem right_iff_unshadowed (h : (system sha1 jail2real parse).Reach AtRest s) (hs : s.scan = {})
    (jfn : Str) (o : UInt32) :
    s.Right sha1 jail2real parse jfn o ↔ ¬ s.Shadowed sha1 jail2real jfn o := by
  have h := told h
  obtain ⟨r, srv, held, scan, heq, -, -, -, hcases⟩ := h.publish hs jfn o
  obtain ⟨⟨st, rfl⟩, hz, -, hshadow⟩ | ⟨f, hf, rfl, -, hhash, hopts⟩ |
    ⟨f, rfl, hjfn, -, -, hz, -, hshadow⟩ := hcases
  · refine iff_of_true ⟨?_, ?_⟩ hshadow
    · rw [heq]
      nofun
    · rw [heq, hz]
      exact ⟨nofun, nofun⟩
  · -- the file of the cache is right if it has this name
    by_cases hjfn : f.jfn = jfn
    · subst hjfn
      have hz := (h.held f hf).2
      rw [parsed_opMask hopts] at hz
      refine iff_of_true ⟨?_, ?_⟩ ?_
      · rw [heq]
        rintro g ⟨⟩
        exact ⟨rfl, hz⟩
      · rw [heq, hz]
        exact ⟨fun _ => rfl, fun _ => ⟨f, rfl⟩⟩
      · rintro ⟨g, hg, hne, hgh, hgo⟩
        apply hne
        have hkey : key g = key f := by
          change (⟨g.hash, opMask g.opts⟩ : SrvCacheKey H) = ⟨f.hash, opMask f.opts⟩
          rw [hgo, hopts, Option.some.inj (hgh.symm.trans hhash)]
        rw [Timehash.eq_of_key_eq hg hf hkey]
    · refine iff_of_false (fun hr => ?_) fun hn => hn ⟨f, hf, hjfn, hhash, hopts⟩
      exact hjfn (hr.file f (by rw [heq])).1
  · refine iff_of_true ⟨?_, ?_⟩ hshadow
    · rw [heq]
      rintro g ⟨⟩
      exact ⟨hjfn, hz⟩
    · rw [heq, hz]
      exact ⟨fun _ => rfl, fun _ => ⟨f, rfl⟩⟩

def twins : Pubd Str Str := start (fun _ => some ⟨[60], true, 0⟩) 1 0 0

theorem right_iff_unshadowed_twins :
    Right id id textParse (twins.call id id textParse (.getfile [97] 0)) [98] 0 ↔
      ¬ Shadowed id id (twins.call id id textParse (.getfile [97] 0)) [98] 0 := by
  have h₀ : (system id id textParse).Reach AtRest twins := .init ⟨_, _, _, _, rfl⟩
  have h₁ := h₀.step (e := Call.getfile [97] 0) rfl rfl
  exact right_iff_unshadowed h₁ rfl [98] 0

/-- The second one is given out under the name of the first. -/
theorem not_right_same_content : ¬ ∀ s : Pubd Str Str, (system id id textParse).Reachable s →
    ∀ jfn o, s.Right id id textParse jfn o := by
  intro h
  have h₁ := Lib.System.reachable_exec (M := system id id textParse) (s := twins)
    [.getfile [97] 0] ⟨_, _, _, _, rfl⟩ rfl
  have hname := ((h _ h₁ [98] 0).file ⟨[97], [97], [60], 1, [60], 0, none⟩ rfl).1
  cases hname

end Pubd

end Okws
