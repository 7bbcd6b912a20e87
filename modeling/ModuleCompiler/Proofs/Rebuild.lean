import ModuleCompiler.Proofs.Build
import ModuleCompiler.Proofs.Clearing

/-!
Builds over the remains of earlier ones. The two folders that a build fills are recreated first, so
file systems that differ only in what lies in these folders are the same once they are empty, and
all that follows is the same.
-/

namespace ModuleCompiler

namespace Disk

variable {d d' c d₁ d₂ c₁ c₂ : Disk} {p : Path} {l : Location} {S : Location → Prop} {u : Unit}

theorem IsDirectory.paved (hd : d.IsDirectory) (hp : p.Straight)
    (h : d.entryAt? p.place = some .folder) : Paved d p := by
  intro l hl
  have habove := hp.onWay_iff.mp hl
  by_cases heq : l = p.place
  · rw [heq]
    exact h
  · have hne : p.place ≠ [] := by
      intro hnil
      rw [hnil] at habove heq
      exact heq (List.prefix_nil.mp habove)
    exact (hd.reached (mem_of_entryAt? hne h) hne).above l habove heq

theorem endsInName_of_straight (hp : p.Straight) (hne : p.place ≠ [])
    (hlast : (trimSlashes (Path.pieces p.chars)).getLast? ≠ some ['.']) : EndsInName p := by
  have hsome : trimSlashes (Path.pieces p.chars) ≠ [] := by
    intro hnil
    have hsteps : p.steps = [] := by rw [Path.steps, ← stepsOf_trimSlashes, hnil]; rfl
    exact hne (hp.place_eq.trans hsteps)
  obtain ⟨name, hname⟩ := Option.ne_none_iff_exists'.mp (mt List.getLast?_eq_none_iff.mp hsome)
  have hpiece : name ∈ Path.pieces p.chars := trimSlashes_subset (List.mem_of_getLast? hname)
  refine ⟨name, hname, ?_, ?_, ?_, Path.no_slash_of_mem_pieces hpiece⟩
  · rintro rfl
    exact getLast?_trimSlashes _ hname
  · rintro rfl
    exact hlast hname
  · rintro rfl
    exact hp (List.mem_filter.mpr ⟨hpiece, rfl⟩)

/-- No folder is made by a path that ends in a dot. -/
theorem withFolder_last (h : d.withFolder p = .ok d') :
    (trimSlashes (Path.pieces p.chars)).getLast? ≠ some ['.'] := by
  unfold withFolder at h
  cases hresolve : d.resolveEntry p with
  | error e =>
    rw [hresolve] at h
    cases h
  | ok target =>
    rw [hresolve] at h
    cases target with
    | present loc e => cases h
    | absent folder name =>
      obtain ⟨a, rest, hsplit, -, hnamed, -, -, -, hrest⟩ :=
        follow_absent_split (resolveEntry_eq_ok.mp hresolve).2
      intro hdot
      rw [hsplit, List.getLast?_append, List.getLast?_cons] at hdot
      have hdot : rest.getLast?.getD name = ['.'] := by simpa using hdot
      cases hlast : rest.getLast? with
      | none =>
        rw [hlast] at hdot
        rw [show name = ['.'] from hdot] at hnamed
        cases hnamed
      | some piece =>
        rw [hlast] at hdot
        rw [hrest piece (List.mem_of_getLast? hlast)] at hdot
        cases hdot

theorem makeFolders_last (hd : d.IsDirectory) (hp : p.Straight) (hne : p.place ≠ [])
    (hnone : d.entryAt? p.place = none) (h : makeFolders p d = .ok u d') :
    (trimSlashes (Path.pieces p.chars)).getLast? ≠ some ['.'] := by
  have hmissing : ∀ {c : Disk}, c.entryAt? p.place = none → c.isFolder p = false := by
    intro c hc
    by_contra hfolder
    have hresolve := isFolder_iff.mp (by simpa using hfolder)
    rw [(place_of_resolve hresolve).2.entry] at hc
    cases hc
  revert h
  fun_cases makeFolders p d with
  | case1 hempty =>
    intro _
    have hchars : p.chars = [] := List.isEmpty_iff.mp hempty
    exact absurd (by rw [Path.place, hchars]; rfl) hne
  | case2 hempty made hmade => exact fun _ => withFolder_last hmade
  | case3 hempty hlack q hparent hlength v made hrun =>
    -- Making the parent leaves the folder itself missing, so it is made last.
    have hmade : made.entryAt? p.place = none := by
      have hsame := (makeFolders_sameOff hd q).2
      rw [hrun] at hsame
      rw [← hnone]
      refine hsame.off _ fun hway => ?_
      rw [hp.parent hparent |>.onWay_iff, hp.place_eq, (hp.parent hparent).place_eq,
        Path.steps_parent hparent] at hway
      have hshort := hway.length_le
      have hsteps : p.steps ≠ [] := hp.place_eq ▸ hne
      have hpos := List.length_pos_of_ne_nil hsteps
      rw [List.length_dropLast] at hshort
      omega
    intro h
    unfold ensureFolder at h
    cases hlast : made.withFolder p with
    | ok made' => exact withFolder_last hlast
    | error e =>
      rw [hlast] at h
      simp only [hmissing hmade] at h
      cases h
  | case4 =>
    intro h
    cases h
  | case5 =>
    intro h
    cases h
  | case6 hempty e hother herror hfolder =>
    rw [hmissing hnone] at hfolder
    cases hfolder
  | case7 =>
    intro h
    cases h

/-- What can have come of deleting a folder: it was there and is erased, or it was missing. -/
theorem deleteFolder_cases (hp : p.Straight) (hne : p.place ≠ [])
    (h : deleteFolder p d = .ok u c) :
    (d.resolve p = .ok (.present p.place .folder) ∧ EndsInName p) ∨
      (c = d ∧ d.resolve p ≠ .ok (.present p.place .folder)) := by
  unfold deleteFolder removeFolder at h
  rw [get_bind_run] at h
  cases hresolve : d.resolve p with
  | error e =>
    rw [hresolve] at h
    refine Or.inr ⟨?_, nofun⟩
    cases e <;> first | exact (EStateM.Result.ok.inj h).2.symm | cases h
  | ok target =>
    rw [hresolve] at h
    cases target with
    | absent folder name => exact Or.inr ⟨(EStateM.Result.ok.inj h).2.symm, nofun⟩
    | present loc e =>
      obtain ⟨rfl, -⟩ := place_of_resolve hresolve
      cases e with
      | file bytes => cases h
      | folder =>
        refine Or.inl ⟨rfl, endsInName_of_straight hp hne fun hdot => ?_⟩
        have hdrop : dropEmptied p p.place = throw .invalidArgument := by
          simp only [dropEmptied, hdot]
        simp only [hdrop] at h
        cases h

/-- A folder that was recreated could be: no file stood in its way. -/
theorem recreateFolder_inv (hd : d.IsDirectory) (hp : p.Straight) (hne : p.place ≠ [])
    (h : recreateFolder p d = .ok u d') : Passable d p ∧ Usable p ∧ EndsInName p := by
  obtain ⟨v, c, hdelete, hcreate⟩ := bind_eq_ok h
  have hchars : p.chars ≠ [] := by
    intro hnil
    exact hne (by rw [Path.place, hnil]; rfl)
  have hmake : makeFolders p c = .ok () d' := by
    unfold createFolder Action.within at hcreate
    cases hmade : makeFolders p c with
    | ok w made =>
      rw [hmade] at hcreate
      rw [(EStateM.Result.ok.inj hcreate).2]
    | error e made =>
      rw [hmade] at hcreate
      cases hcreate
  obtain ⟨husable, hpaved⟩ := makeFolders_paved hmake hchars
  rcases deleteFolder_cases hp hne hdelete with ⟨hthere, hend⟩ | ⟨rfl, hmissing⟩
  · exact ⟨(paved_of_resolve hthere).passable, husable, hend⟩
  · have hpass : Passable c p := by
      intro l hl
      have hgrown := makeFolders_furnished p c l
      rw [hmake] at hgrown
      rcases hgrown with hsame | ⟨hnone, -⟩
      · exact Or.inr (hsame ▸ hpaved l hl)
      · exact Or.inl hnone
    have hnone : c.entryAt? p.place = none := by
      rcases hpass _ (Path.onWay_place p) with hnone | hfolder
      · exact hnone
      · exact absurd ((hd.paved hp hfolder).resolve husable hchars) hmissing
    exact ⟨hpass, husable, endsInName_of_straight hp hne (makeFolders_last hd hp hne hnone hmake)⟩

/-- The entries off some places are the same. -/
def AgreeOff (S : Location → Prop) (d₁ d₂ : Disk) : Prop :=
  ∀ x : Location × Entry, ¬ S x.1 → (x ∈ d₁.entries ↔ x ∈ d₂.entries)

theorem AgreeOff.entryAt? (h : AgreeOff S d₁ d₂) (h₁ : d₁.IsDirectory) (h₂ : d₂.IsDirectory)
    (hl : ¬ S l) : d₁.entryAt? l = d₂.entryAt? l := by
  by_cases hnil : l = []
  · rw [hnil]
    rfl
  · refine Option.ext fun e => ?_
    rw [h₁.entryAt?_iff hnil, h₂.entryAt?_iff hnil]
    exact h (l, e) hl

theorem agreeOff_of_erase {b : Location} (h : (d₁.erase b).erase l = (d₂.erase b).erase l) :
    AgreeOff (fun k => b <+: k ∨ l <+: k) d₁ d₂ := by
  intro x hx
  have hin := congrArg (x ∈ ·.entries) h
  simp only [mem_erase, eq_iff_iff] at hin
  simp only [not_or] at hx
  simpa [hx.1, hx.2] using hin

/-- Once a folder is empty in both, what lay in it makes no difference any more. -/
theorem Emptied.agree (h₁ : Emptied p d₁ c₁) (h₂ : Emptied p d₂ c₂) (hd₁ : d₁.IsDirectory)
    (hd₂ : d₂.IsDirectory) (hne : p.place ≠ [])
    (h : AgreeOff (fun l => p.place <+: l ∨ S l) d₁ d₂) : AgreeOff S c₁ c₂ := by
  rintro ⟨k, e⟩ hk
  by_cases hnil : k = []
  · subst hnil
    have hout : ¬ p.place <+: [] := fun hbelow => hne (List.prefix_nil.mp hbelow)
    rw [h₁.off.top, h₂.off.top, mem_erase, mem_erase, h ([], e) (by simp [hout, hk])]
  · rw [← h₁.isDirectory.entryAt?_iff hnil, ← h₂.isDirectory.entryAt?_iff hnil]
    by_cases hway : p.OnWay k
    · rw [h₁.paved k hway, h₂.paved k hway]
    · rw [h₁.off.off k hway, h₂.off.off k hway, entryAt?_erase hne, entryAt?_erase hne]
      split
      · rfl
      · rename_i hout
        rw [h.entryAt? hd₁ hd₂ (by simp [hout, hk])]

/-- A folder that is recreated in one of two file systems is recreated in the other, if these agree
above it and it is not a file in either. -/
theorem recreateFolder_agree (hd₁ : d₁.IsDirectory) (hd₂ : d₂.IsDirectory) (hp : p.Straight)
    (hne : p.place ≠ []) (h : AgreeOff (fun l => p.place <+: l ∨ S l) d₁ d₂)
    (habove : ∀ l, l <+: p.place → ¬ S l)
    (hopen : d₂.entryAt? p.place = none ∨ d₂.entryAt? p.place = some .folder)
    (hrun : recreateFolder p d₁ = .ok u c₁) :
    ∃ c₂, recreateFolder p d₂ = .ok () c₂ ∧ Emptied p d₁ c₁ ∧ Emptied p d₂ c₂ := by
  obtain ⟨hpass, husable, hend⟩ := recreateFolder_inv hd₁ hp hne hrun
  have hpass₂ : Passable d₂ p := by
    intro l hl
    by_cases heq : l = p.place
    · rw [heq]
      exact hopen
    · have hfirst := hp.onWay_iff.mp hl
      have hout : ¬ p.place <+: l := fun hbelow => heq (hfirst.eq_of_length_le hbelow.length_le)
      rw [← h.entryAt? hd₁ hd₂ (by simp [hout, habove l hfirst])]
      exact hpass l hl
  obtain ⟨c, hrun₁, he₁⟩ := recreateFolder_run hd₁ hpass husable hend hne (hd₁.paved hp)
  obtain ⟨c₂, hrun₂, he₂⟩ := recreateFolder_run hd₂ hpass₂ husable hend hne (hd₂.paved hp)
  rw [hrun₁] at hrun
  obtain ⟨-, rfl⟩ := EStateM.Result.ok.inj hrun
  exact ⟨c₂, hrun₂, he₁, he₂⟩

/-- Two folders recreated one after the other, neither of which lies in the other. -/
theorem recreated_agree {binaries code : Path} {v : Unit} (hd₁ : d₁.IsDirectory)
    (hd₂ : d₂.IsDirectory) (hb : binaries.Straight) (hc : code.Straight)
    (hbc : ¬ binaries.place <+: code.place) (hcb : ¬ code.place <+: binaries.place)
    (h : AgreeOff (fun l => binaries.place <+: l ∨ code.place <+: l) d₁ d₂)
    (hopen : ∀ p ∈ [binaries, code],
      d₂.entryAt? p.place = none ∨ d₂.entryAt? p.place = some .folder)
    (hfirst : recreateFolder binaries d₁ = .ok u c) (hsecond : recreateFolder code c = .ok v d) :
    ∃ c₂, recreateFolder binaries d₂ = .ok () c₂ ∧ recreateFolder code c₂ = .ok () d := by
  have hbne : binaries.place ≠ [] := fun hnil => hbc (hnil ▸ List.nil_prefix)
  have hcne : code.place ≠ [] := fun hnil => hcb (hnil ▸ List.nil_prefix)
  obtain ⟨c₂, hrun₂, he₁, he₂⟩ := recreateFolder_agree hd₁ hd₂ hb hbne h
    (fun l hl hbelow => hcb (hbelow.trans hl)) (hopen _ (by simp)) hfirst
  have hagree : AgreeOff (fun l => code.place <+: l ∨ False) c c₂ := by
    simpa using he₁.agree he₂ hd₁ hd₂ hbne h
  have hopen₂ : c₂.entryAt? code.place = none ∨ c₂.entryAt? code.place = some .folder := by
    rw [he₂.off.off _ (fun hway => hcb (hb.onWay_iff.mp hway)), entryAt?_erase hbne, if_neg hbc]
    exact hopen _ (by simp)
  obtain ⟨e₂, hrest₂, hf₁, hf₂⟩ := recreateFolder_agree he₁.isDirectory he₂.isDirectory hc hcne
    hagree (fun _ _ => not_false) hopen₂ hsecond
  have hsame := hf₁.agree hf₂ he₁.isDirectory he₂.isDirectory hcne hagree
  obtain rfl : d = e₂ := hf₁.isDirectory.ext hf₂.isDirectory fun x => hsame x not_false
  exact ⟨c₂, hrun₂, hrest₂⟩

end Disk

namespace Pipeline

variable {ast : Ast} {tool : BuildTool} {c : Config} {d d₁ d₂ made cleared : Disk} {p q : Pipeline}

/-- The first stage once its folders are empty. -/
def fillCode : Action BuildState := do
  Action.ofWorkspace Workspace.generateCode
  conclude .codeGenerated .codeGeneration

/-- A project, known by name, whose two folders were recreated in order. -/
structure Cleared (ast : Ast) (c : Config) (d cleared : Disk) : Prop where
  project : ∃ project name, ast.store.projectModule = .ok (some project) ∧
    ast.store.moduleName project = .ok name
  folders : ∃ made, Disk.recreateFolder c.binaries d = .ok () made ∧
    Disk.recreateFolder c.code made = .ok () cleared

theorem prepare_run {project : Entity} {name : String}
    (hproject : ast.store.projectModule = .ok (some project))
    (hname : ast.store.moduleName project = .ok name) :
    prepare (new ast d c tool) =
      attempt (Disk.recreateFolder c.binaries) .binariesNotCleaned (new ast d c tool) := by
  have hread : Action.ofWorkspace (.ofRead Store.projectModule) (new ast d c tool) =
      .ok (some project) (new ast d c tool) := read_run hproject
  have hreadName : Action.ofWorkspace (.ofRead (·.moduleName project)) (new ast d c tool) =
      .ok name (new ast d c tool) := read_run hname
  show (Action.ofWorkspace (.ofRead Store.projectModule) >>= _) (new ast d c tool) = _
  rw [bind_run_ok hread]
  show (discard (Action.ofWorkspace (.ofRead (·.moduleName project))) >>= _) _ = _
  rw [bind_run_ok (discard_run_ok hreadName)]
  rfl

theorem Cleared.generateCode_run (h : Cleared ast c d cleared) :
    generateCode (new ast d c tool) = fillCode (new ast cleared c tool) := by
  obtain ⟨⟨project, name, hproject, hname⟩, made, hfirst, hsecond⟩ := h
  have hprepare : prepare (new ast d c tool) = .ok true (new ast made c tool) :=
    (prepare_run hproject hname).trans (attempt_run_ok hfirst)
  have hcode : attempt (Disk.recreateFolder c.code) .codeNotPrepared (new ast made c tool) =
      .ok true (new ast cleared c tool) := attempt_run_ok hsecond
  unfold generateCode
  rw [bind_run_ok hprepare]
  show (attempt (Disk.recreateFolder c.code) .codeNotPrepared >>= _) (new ast made c tool) = _
  rw [bind_run_ok hcode]
  rfl

/-- The binaries are emptied only if there is a project. -/
theorem project_of_prepare (h : prepare (new ast d c tool) = .ok true p) :
    ∃ project name, ast.store.projectModule = .ok (some project) ∧
      ast.store.moduleName project = .ok name := by
  have hread : (Action.ofWorkspace (.ofRead Store.projectModule) >>= _) (new ast d c tool) =
      .ok true p := h
  obtain ⟨found, q, hfound, hrest⟩ := bind_eq_ok hread
  obtain ⟨hproject, rfl⟩ := of_read_run hfound
  cases found with
  | none => cases hrest
  | some project =>
    obtain ⟨u, q, hdiscard, -⟩ := bind_eq_ok hrest
    obtain ⟨name, hrun⟩ := discard_eq_ok hdiscard
    exact ⟨project, name, hproject, (of_read_run hrun).1⟩

/-- Code is generated only for a project, and only into folders that were recreated. -/
theorem cleared_of_generateCode (h : generateCode (new ast d c tool) = .ok .codeGenerated q) :
    ∃ cleared, Cleared ast c d cleared := by
  obtain ⟨done, p, hprepare, hrest⟩ := bind_eq_ok h
  cases done with
  | false => cases hrest
  | true =>
    obtain ⟨project, name, hproject, hname⟩ := project_of_prepare hprepare
    rw [prepare_run hproject hname] at hprepare
    obtain ⟨made, hfirst, rfl⟩ := of_attempt_run hprepare
    have hrest : (attempt (Disk.recreateFolder c.code) .codeNotPrepared >>= _)
        (new ast made c tool) = .ok BuildState.codeGenerated q := hrest
    obtain ⟨done, p, hcode, hlast⟩ := bind_eq_ok hrest
    cases done with
    | true =>
      obtain ⟨cleared, hsecond, -⟩ := of_attempt_run hcode
      exact ⟨cleared, ⟨project, name, hproject, hname⟩, made, hfirst, hsecond⟩
    | false =>
      -- Here the failure was reported, and a stage with reports does not lead on.
      obtain ⟨done, r, hrun, -, -, hlength⟩ :=
        attempt_ends (p := new ast made c tool) (Disk.recreateFolder c.code) .codeNotPrepared
      obtain ⟨rfl, rfl⟩ := EStateM.Result.ok.inj (hcode.symm.trans hrun)
      obtain ⟨hclean, -⟩ := clean_of_conclude hlast nofun
      rw [hclean] at hlength
      cases hlength

/-- A configuration whose two output folders are named without steps up and do not lie in one
another. -/
structure SeparateOutputs (c : Config) : Prop where
  binaries : c.binaries.Straight
  code : c.code.Straight
  outside : ¬ c.binaries.place <+: c.code.place
  aside : ¬ c.code.place <+: c.binaries.place

/-- Two directories that differ only in what earlier builds have left in the output folders, none
of which is a file. -/
structure SameButOutputs (c : Config) (d₁ d₂ : Disk) : Prop where
  first : d₁.IsDirectory
  second : d₂.IsDirectory
  same : (d₁.erase c.binaries.place).erase c.code.place =
    (d₂.erase c.binaries.place).erase c.code.place
  noFile : ∀ d ∈ [d₁, d₂], ∀ p ∈ [c.binaries, c.code],
    d.entryAt? p.place = none ∨ d.entryAt? p.place = some .folder

theorem SameButOutputs.symm (h : SameButOutputs c d₁ d₂) : SameButOutputs c d₂ d₁ :=
  ⟨h.second, h.first, h.same.symm, fun d hd => h.noFile d (by simpa [or_comm] using hd)⟩

/-- The first stage does not see what earlier builds have left. -/
theorem SameButOutputs.generateCode_eq (h : SameButOutputs c d₁ d₂) (hc : SeparateOutputs c)
    (hrun : generateCode (new ast d₁ c tool) = .ok .codeGenerated q) :
    generateCode (new ast d₂ c tool) = generateCode (new ast d₁ c tool) := by
  obtain ⟨cleared, hcleared⟩ := cleared_of_generateCode hrun
  obtain ⟨made, hfirst, hsecond⟩ := hcleared.folders
  obtain ⟨made₂, hfirst₂, hsecond₂⟩ := Disk.recreated_agree h.first h.second hc.binaries hc.code
    hc.outside hc.aside (Disk.agreeOff_of_erase h.same) (h.noFile d₂ (by simp)) hfirst hsecond
  have hcleared₂ : Cleared ast c d₂ cleared := ⟨hcleared.project, made₂, hfirst₂, hsecond₂⟩
  rw [hcleared.generateCode_run, hcleared₂.generateCode_run]

theorem SameButOutputs.step_eq (h : SameButOutputs c d₁ d₂) (hc : SeparateOutputs c)
    {launcher : Launcher} (hrun : step launcher (new ast d₁ c tool) = .ok .codeGenerated q) :
    step launcher (new ast d₂ c tool) = step launcher (new ast d₁ c tool) := by
  have hstep : ∀ d, step launcher (new ast d c tool) = (generateCode >>= fun next => do
      modify fun p => { p with state := next }
      return next) (new ast d c tool) := fun _ => rfl
  rw [hstep] at hrun
  obtain ⟨st, r, hgenerate, hrest⟩ := bind_eq_ok hrun
  obtain rfl : st = .codeGenerated := (EStateM.Result.ok.inj hrest).1
  rw [hstep, hstep, bind_run, bind_run, h.generateCode_eq hc hgenerate]

/-- What earlier builds have left in the output folders does not leak into a build: code is
generated over the one lot of remains exactly if it is over the other, with the same files, and
then everything that follows is the same, whatever the launcher does. -/
theorem build_blind_to_leftovers (ast : Ast) (tool : BuildTool) {c : Config} {d₁ d₂ : Disk}
    (hc : SeparateOutputs c) (h : SameButOutputs c d₁ d₂) (launcher : Launcher) :
    (∀ q, step launcher (new ast d₁ c tool) = .ok .codeGenerated q ↔
      step launcher (new ast d₂ c tool) = .ok .codeGenerated q) ∧
    ∀ q, step launcher (new ast d₁ c tool) = .ok .codeGenerated q →
      run launcher (new ast d₁ c tool) = run launcher (new ast d₂ c tool) := by
  refine ⟨fun q => ⟨fun hq => ?_, fun hq => ?_⟩, fun q hq => ?_⟩
  · rw [h.step_eq hc hq, hq]
  · rw [h.symm.step_eq hc hq, hq]
  · have hrun : ∀ d, run launcher (new ast d c tool) =
        (discard (step launcher) >>= fun _ => runFor launcher 4) (new ast d c tool) := fun _ => rfl
    rw [hrun, hrun, bind_run, bind_run, discard_run, discard_run, h.step_eq hc hq]

/-- A project that was built before, by something that left files where folders belong. -/
def cluttered : Disk where
  entries := [
    (["Workshop".toList], .folder),
    (["Workshop".toList, "Binaries".toList], .folder),
    (["Workshop".toList, "Binaries".toList, "Workshop".toList], .file "old".toUTF8),
    (["Workshop".toList, "Intermediates".toList], .folder),
    (["Workshop".toList, "Intermediates".toList, "Code".toList], .folder),
    (["Workshop".toList, "Intermediates".toList, "Code".toList, "Workshop".toList],
      .file "old".toUTF8),
    (["Workshop".toList, "Module.rift".toList], .file "".toUTF8)]

/-- The same project before its first build. -/
def tidy : Disk where
  entries := [
    (["Workshop".toList], .folder),
    (["Workshop".toList, "Intermediates".toList], .folder),
    (["Workshop".toList, "Module.rift".toList], .file "".toUTF8)]

def workshopConfig : Config := .ofProject (.ofString "Workshop")

theorem build_blind_to_leftovers_workshop :
    SeparateOutputs workshopConfig ∧ SameButOutputs workshopConfig cluttered tidy ∧
    (∃ q, step oneShot (.new (Ast.reached workshopRun) cluttered workshopConfig .standard) =
      .ok .codeGenerated q) ∧
    run oneShot (.new (Ast.reached workshopRun) cluttered workshopConfig .standard) =
      run oneShot (.new (Ast.reached workshopRun) tidy workshopConfig .standard) := by
  have hseparate : SeparateOutputs workshopConfig :=
    ⟨by decide +kernel, by decide +kernel, by decide +kernel, by decide +kernel⟩
  have hsame : SameButOutputs workshopConfig cluttered tidy := by
    refine ⟨⟨by decide +kernel, by decide +kernel, by decide +kernel, by decide +kernel⟩,
      ⟨by decide +kernel, by decide +kernel, by decide +kernel, by decide +kernel⟩,
      congrArg Disk.mk (by decide +kernel), ?_⟩
    simp only [List.forall_mem_cons]
    decide +kernel
  have hfresh : Fresh (.new (Ast.reached workshopRun) cluttered workshopConfig .standard) :=
    ⟨⟨Store.consistent_carriedOut (by decide +kernel), List.isEmpty_iff.mp (by decide +kernel),
      List.isEmpty_iff.mp (by decide +kernel)⟩, rfl, rfl, rfl⟩
  have hstep := (hfresh.standing_course oneShot 0).course_succ.1
  rw [show (course oneShot _ 1).state = .codeGenerated by decide +kernel] at hstep
  exact ⟨hseparate, hsame, ⟨_, hstep⟩,
    (build_blind_to_leftovers _ .standard hseparate hsame oneShot).2 _ hstep⟩

end Pipeline

end ModuleCompiler
