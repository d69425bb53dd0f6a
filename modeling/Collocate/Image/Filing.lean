import Collocate.Image.Staging

/-! # From layers to images

An image is filed once all its layers are there. What holds of every import and every pull, in any
setting in which that keeps a property of the store. -/
namespace Collocate.Image
set_option autoImplicit false

open Registry (Descriptor Index Manifest Reference Conn)

variable {Tree : Type} {x : Env Tree}

namespace Setting

variable {σ : Type} {S : Setting x σ} {K : σ → Prop} {L : List String → Prop} {E : Error → σ → Prop}

/-- A property that is kept by moves, and by filing an image whose layers satisfy `L` and are there. -/
structure Filed (S : Setting x σ) (K : σ → Prop) (L : List String → Prop) : Prop extends Kept S K where
  opens : ∀ {file w s}, S.may (.openMeta file) w s → K s →
    S.G s (S.run (.openMeta file) w s).2 ∧ K (S.run (.openMeta file) w s).2
  writes : ∀ {file img w s}, S.may (.writeMeta file img) w s → K s → L img.layers → (∀ l ∈ img.layers, S.Found l s) →
    S.G s (S.run (.writeMeta file img) w s).2 ∧ K (S.run (.writeMeta file img) w s).2

theorem exec_openMeta_layers (file : String) (w : Fate Tree) (d : Disk Tree) :
    (exec x (.openMeta file) w d).2.layers = d.layers := by
  cases w <;> rfl

theorem exec_writeMeta_layers (file : String) (img : ImageMeta) (w : Fate Tree) (d : Disk Tree) :
    (exec x (.writeMeta file img) w d).2.layers = d.layers := by
  cases w <;> rfl

theorem exec_openMeta_whole {file file' : String} {img : ImageMeta} {w : Fate Tree} {d : Disk Tree}
    (h : (exec x (.openMeta file) w d).2.metas.get? file' = some (.whole img)) :
    d.metas.get? file' = some (.whole img) := by
  have hcases : (exec x (.openMeta file) w d).2.metas = d.metas ∨
      (exec x (.openMeta file) w d).2.metas = d.metas.insert file .torn := by
    cases w <;> first | exact Or.inl rfl | exact Or.inr rfl
  rcases hcases with heq | heq
  · rw [heq] at h
    exact h
  · rw [heq, OrdMap.get?_insert] at h
    split at h
    · cases h
    · exact h

theorem exec_writeMeta_whole {file file' : String} {img img' : ImageMeta} {w : Fate Tree} {d : Disk Tree}
    (h : (exec x (.writeMeta file img) w d).2.metas.get? file' = some (.whole img')) :
    d.metas.get? file' = some (.whole img') ∨ img' = img := by
  have hcases : (exec x (.writeMeta file img) w d).2.metas = d.metas ∨
      (exec x (.writeMeta file img) w d).2.metas = d.metas.insert file .torn ∨
      (exec x (.writeMeta file img) w d).2.metas = d.metas.insert file (.whole img) := by
    cases w <;> first | exact Or.inl rfl | exact Or.inr (Or.inl rfl) | exact Or.inr (Or.inr rfl)
  rcases hcases with heq | heq | heq
  · rw [heq] at h
    exact Or.inl h
  · rw [heq, OrdMap.get?_insert] at h
    split at h
    · cases h
    · exact Or.inl h
  · rw [heq, OrdMap.get?_insert] at h
    split at h
    · cases h
      exact Or.inr rfl
    · exact Or.inl h

/-- That some layers are there may be added. -/
theorem Filed.found (hK : S.Filed K L) (ls : List String) : S.Filed (fun s => K s ∧ ∀ l ∈ ls, S.Found l s) L where
  stable := fun s s' hs hR => ⟨hK.stable _ _ hs.1 hR, fun l hl => Found.stable _ _ (hs.2 l hl) hR⟩
  moves := fun hmay hmoves hunseen hs =>
    ⟨hK.moves hmay hmoves hunseen hs.1, fun l hl => (hs.2 l hl).keep hmay hmoves.grows⟩
  opens := by
    intro file w s hmay hs
    obtain ⟨hG, hK'⟩ := hK.opens hmay hs.1
    refine ⟨hG, hK', fun l hl => (hs.2 l hl).keep hmay (.of_eq ?_)⟩
    rw [S.next, exec_openMeta_layers]
  writes := by
    intro file img w s hmay hs hL hfound
    obtain ⟨hG, hK'⟩ := hK.writes hmay hs.1 hL hfound
    refine ⟨hG, hK', fun l hl => (hs.2 l hl).keep hmay (.of_eq ?_)⟩
    rw [S.next, exec_writeMeta_layers]

theorem Astray.imp {K' : σ → Prop} (h : ∀ s, K s → K' s) {s : σ} (hs : S.Astray K s) : S.Astray K' s :=
  hs.imp_left (h s)

/-! ## Looking and filing -/

/-- A call that only looks. -/
theorem look_spec (op : Op Tree) (hK : S.Kept K) (hdisk : ∀ w d, (exec x op w d).2 = d)
    (hop : ∀ p q, op ≠ .rename p q) :
    S.Spec K (Job.ask op) (fun _ => K) E := by
  refine Job.Spec.ask hK.stable (fun _ => hK.stable) fun s w hs hmay => ?_
  exact ⟨S.moves hmay (moves_of_eq (by rw [S.next, hdisk])), hK.idle hdisk hop hs hmay⟩

theorem detect_spec (hK : S.Kept K) (img : ImageMeta) : S.Spec K (detect img) (fun _ => K) E := by
  unfold detect
  split
  · exact Job.Spec.pure hK.stable fun _ hs => hs
  · induction img.layers.reverse with
    | nil => exact Job.Spec.pure hK.stable fun _ hs => hs
    | cons l rest ih =>
      refine Job.Spec.bind S.refl (look_spec (.ships l) hK (fun w d => rfl) nofun) fun b => ?_
      cases b with
      | true => exact Job.Spec.pure hK.stable fun _ hs => hs
      | false => exact ih

theorem must_own (hK : S.Kept K) {h : (Op.own : Op Tree).Ans = Result Unit} :
    S.Spec K (must .own h) (fun _ => K) (fun _ => S.Astray K) :=
  must_idle hK.stable (fun _ => Astray.stable hK) exec_own (fun _ _ hs hmay => hK.idle exec_own nofun hs hmay)
    fun _ _ hs => Or.inl hs

theorem put_spec (hK : S.Filed K L) (img : ImageMeta) (hL : L img.layers) :
    S.Spec (fun s => K s ∧ ∀ l ∈ img.layers, S.Found l s) (put img) (fun _ s => K s ∧ ∀ l ∈ img.layers, S.Found l s)
      (fun _ => S.Astray K) := by
  have hK' := hK.found img.layers
  have hfail : Error → Job.Stable S.R (S.Astray K) := fun _ => Astray.stable hK.toKept
  refine Job.Spec.bind S.refl (Q := fun _ s => K s ∧ ∀ l ∈ img.layers, S.Found l s)
    ((must_own hK'.toKept).conseq (fun _ hs => hs) (fun _ _ hs => hs) fun _ _ hs => hs.imp fun _ hs => hs.1) fun _ => ?_
  refine Job.Spec.bind S.refl (Q := fun _ s => K s ∧ ∀ l ∈ img.layers, S.Found l s)
    (must_spec hK'.stable hK'.stable hfail fun s w hs hmay => ?_) fun _ => ?_
  · obtain ⟨hG, hs'⟩ := hK'.opens hmay hs
    exact ⟨hG, fun _ _ => hs', fun _ _ => Or.inl hs'.1⟩
  · refine must_spec hK'.stable hK'.stable hfail fun s w hs hmay => ?_
    obtain ⟨hG, hs'⟩ := hK'.writes hmay hs hL hs.2
    exact ⟨hG, fun _ _ => hs', fun _ _ => Or.inl hs'.1⟩

theorem finish_spec (hK : S.Filed K L) (img : ImageMeta) (hL : L img.layers) :
    S.Spec (fun s => K s ∧ ∀ l ∈ img.layers, S.Found l s) (finish img)
      (fun img' s => (K s ∧ ∀ l ∈ img.layers, S.Found l s) ∧ ∃ kind, img' = { img with kind })
      (fun _ => S.Astray K) := by
  refine Job.Spec.bind S.refl (detect_spec (hK.found img.layers).toKept img) fun kind => ?_
  refine Job.Spec.bind S.refl (put_spec hK { img with kind } hL) fun _ => ?_
  exact Job.Spec.pure (hK.found img.layers).stable fun s hs => ⟨hs, kind, rfl⟩

/-! ## Layers in turn -/

/-- A loop that stores layers: afterwards they are all there. -/
theorem forM_store {α : Type} (hK : S.Filed K L) (f : α → Work Tree Unit) (id : α → String) (items : List α)
    (hstep : ∀ a ∈ items, ∀ K', S.Filed K' L → S.Spec K' (f a) (fun _ s => K' s ∧ S.Found (id a) s)
      (fun _ => S.Astray K')) :
    S.Spec K (items.forM f) (fun _ s => K s ∧ ∀ a ∈ items, S.Found (id a) s) (fun _ => S.Astray K) := by
  induction items generalizing K with
  | nil => exact Job.Spec.pure hK.stable fun s hs => ⟨hs, nofun⟩
  | cons a rest ih =>
    have hK' := hK.found [id a]
    refine Job.Spec.bind S.refl (hstep a (List.mem_cons_self ..) K hK) fun _ => ?_
    refine (ih hK' fun b hb => hstep b (List.mem_cons_of_mem _ hb)).conseq ?_ ?_ fun _ _ hs => hs.imp fun _ hs => hs.1
    · exact fun s hs => ⟨hs.1, fun l hl => by rw [List.mem_singleton.mp hl]; exact hs.2⟩
    · rintro _ s ⟨⟨hs, hfirst⟩, hrest⟩
      refine ⟨hs, fun b hb => ?_⟩
      rcases List.mem_cons.mp hb with rfl | hb
      · exact hfirst _ (List.mem_singleton_self _)
      · exact hrest b hb

end Setting

/-! ## Where an image comes from -/

def dockerEntries (x : Env Tree) (a : Archive) : Result (List ManifestEntry) :=
  (a.read "manifest.json").bind fun bytes => decodedWith (x.decodeEntries bytes)

/-- The image that an entry of a docker archive describes. -/
def EntryGives (x : Env Tree) (a : Archive) (entry : ManifestEntry) (img : ImageMeta) : Prop :=
  ∃ bytes img₀ kind, a.read entry.config = .ok bytes ∧
    parseConfig x ((entry.repoTags.bind List.head?).getD (x.digestOf bytes)) (x.digestOf bytes) bytes = .ok img₀ ∧
    img = { img₀ with kind }

/-- The blobs that lead from the index of an OCI layout to a configuration. -/
structure OciChain (x : Env Tree) (a : Archive) where
  index : Index
  entry : Descriptor
  manifest : Manifest
  config : List UInt8
  readsIndex : readIndex x a = .ok index
  selects : selectManifestEntry x index = .ok entry
  readsManifest : readManifest x a entry.digest = .ok manifest
  readsConfig : readBlob a manifest.config.digest = .ok config

/-- The image that an OCI layout describes. -/
def OciGives (x : Env Tree) (a : Archive) (img : ImageMeta) : Prop :=
  ∃ (c : OciChain x a) (img₀ : ImageMeta) (kind : ImageKind),
    parseConfig x ((c.entry.annotations.get? "org.opencontainers.image.ref.name").getD c.manifest.config.digest)
      c.manifest.config.digest c.config = .ok img₀ ∧ img = { img₀ with kind }

/-- The image that a registry describes under a manifest. -/
def PullGives {net : Type} (x : Env Tree) (src : Source net) (r : Reference) (digest : String) (manifest : Manifest)
    (conn : Conn net) (img : ImageMeta) : Prop :=
  ∃ bytes conn' img₀ kind, Registry.Client.getBlob x.codec src.http ⟨r.registry⟩ r.repository manifest.config.digest
      src.creds conn = (.ok bytes, conn') ∧
    parseConfig x (referenceName r) digest bytes = .ok img₀ ∧ img = { img₀ with kind }

theorem mem_zip_right {α β : Type} {as : List α} {bs : List β} (h : bs.length = as.length) {b : β} (hb : b ∈ bs) :
    ∃ p ∈ as.zip bs, p.2 = b := by
  have hmap : (as.zip bs).map Prod.snd = bs := List.map_snd_zip (by omega)
  rw [← hmap] at hb
  exact List.mem_map.mp hb

namespace Setting

variable {σ : Type} {S : Setting x σ} {K : σ → Prop} {L : List String → Prop}

/-- All layers of an image are there. -/
def AllFound (S : Setting x σ) (img : ImageMeta) (s : σ) : Prop := ∀ l ∈ img.layers, S.Found l s

/-- A result that is computed, with an error that the property survives. -/
theorem lift_spec {α : Type} {r : Result α} (hK : S.Kept K) :
    S.Spec K (Job.lift r) (fun a s => K s ∧ r = .ok a) (fun _ => S.Astray K) :=
  Job.Spec.lift hK.stable (fun _ _ hs h => ⟨hs, h⟩) fun _ _ hs _ => Or.inl hs

theorem of_pure {α : Type} {P : Prop} {job : Work Tree α} {Q : α → σ → Prop} {E : Error → σ → Prop}
    (h : P → S.Spec K job Q E) : S.Spec (fun s => K s ∧ P) job Q E :=
  fun s hs => h hs.2 s hs.1

theorem importEntry_spec (hK : S.Filed K L) {a : Archive} {entry : ManifestEntry}
    (hL : ∀ img, EntryGives x a entry img → L img.layers) :
    S.Spec K (importEntry x a entry) (fun img s => (K s ∧ S.AllFound img s) ∧ EntryGives x a entry img)
      (fun _ => S.Astray K) := by
  refine Job.Spec.bind S.refl (lift_spec hK.toKept) fun bytes => of_pure fun hread => ?_
  refine Job.Spec.bind S.refl (lift_spec hK.toKept) fun img => of_pure fun hparse => ?_
  dsimp only
  split
  · exact Job.Spec.throw hK.stable fun _ hs => Or.inl hs
  · rename_i hlen
    have hlen : img.layers.length = entry.layers.length := not_not.mp hlen
    refine Job.Spec.bind S.refl (forM_store hK _ Prod.snd _ fun p _ K' hK' => ?_) fun _ => ?_
    · refine Job.Spec.bind S.refl (lift_spec hK'.toKept) fun file => of_pure fun _ => ?_
      refine Job.Spec.bind S.refl (lift_spec hK'.toKept) fun compression => of_pure fun _ => ?_
      exact storeLayer_spec hK'.toKept
    · have hgives : ∀ kind, EntryGives x a entry { img with kind } := fun kind => ⟨bytes, img, kind, hread, hparse, rfl⟩
      refine (finish_spec hK img (hL _ (hgives img.kind))).conseq ?_ ?_ fun _ _ hs => hs
      · rintro s ⟨hs, hfound⟩
        refine ⟨hs, fun l hl => ?_⟩
        obtain ⟨p, hp, rfl⟩ := mem_zip_right hlen hl
        exact hfound p hp
      · rintro img' s ⟨hs, kind, rfl⟩
        exact ⟨hs, hgives kind⟩

theorem collect_spec {α : Type} (hK : S.Filed K L) (f : α → Work Tree ImageMeta) (T : α → ImageMeta → Prop)
    (items : List α) (hstep : ∀ a ∈ items, ∀ K', S.Filed K' L →
      S.Spec K' (f a) (fun img s => (K' s ∧ S.AllFound img s) ∧ T a img) (fun _ => S.Astray K')) :
    S.Spec K (Job.collect f items)
      (fun imgs s => (K s ∧ ∀ img ∈ imgs, S.AllFound img s) ∧ List.Forall₂ T items imgs) (fun _ => S.Astray K) := by
  induction items generalizing K with
  | nil => exact Job.Spec.pure hK.stable fun s hs => ⟨⟨hs, nofun⟩, .nil⟩
  | cons a rest ih =>
    refine Job.Spec.bind S.refl (hstep a (List.mem_cons_self ..) K hK) fun img => of_pure fun hT => ?_
    have hK' := hK.found img.layers
    refine Job.Spec.bind S.refl ((ih hK' fun b hb => hstep b (List.mem_cons_of_mem _ hb)).conseq (fun _ hs => hs)
      (fun _ _ hs => hs) fun _ _ hs => hs.imp fun _ hs => hs.1) fun imgs => ?_
    refine Job.Spec.pure ?_ ?_
    · rintro s s' ⟨⟨hs, hfound⟩, hall⟩ hR
      exact ⟨⟨hK'.stable _ _ hs hR, fun img hi l hl => Found.stable _ _ (hfound img hi l hl) hR⟩, hall⟩
    · rintro s ⟨⟨hs, hfound⟩, hall⟩
      refine ⟨⟨hs.1, fun img' hi => ?_⟩, .cons hT hall⟩
      rcases List.mem_cons.mp hi with rfl | hi
      · exact hs.2
      · exact hfound img' hi

theorem importDockerArchive_spec (hK : S.Filed K L) {a : Archive}
    (hL : ∀ entries, dockerEntries x a = .ok entries → ∀ entry ∈ entries, ∀ img, EntryGives x a entry img →
      L img.layers) :
    S.Spec K (importDockerArchive x a)
      (fun imgs s => (K s ∧ ∀ img ∈ imgs, S.AllFound img s) ∧
        ∃ entries, dockerEntries x a = .ok entries ∧ List.Forall₂ (EntryGives x a) entries imgs)
      (fun _ => S.Astray K) := by
  refine Job.Spec.bind S.refl (lift_spec hK.toKept) fun entries => of_pure fun hentries => ?_
  refine (collect_spec hK _ (EntryGives x a) entries fun entry he K' hK' =>
    importEntry_spec hK' (hL entries hentries entry he)).conseq
    (fun _ hs => hs) ?_ fun _ _ hs => hs
  rintro imgs s ⟨hs, hall⟩
  exact ⟨hs, entries, hentries, hall⟩

theorem importOciLayout_spec (hK : S.Filed K L) {a : Archive} (hL : ∀ img, OciGives x a img → L img.layers) :
    S.Spec K (importOciLayout x a)
      (fun imgs s => (K s ∧ ∀ img ∈ imgs, S.AllFound img s) ∧ ∃ img, imgs = [img] ∧ OciGives x a img)
      (fun _ => S.Astray K) := by
  refine Job.Spec.bind S.refl (lift_spec hK.toKept) fun index => of_pure fun hindex => ?_
  refine Job.Spec.bind S.refl (lift_spec hK.toKept) fun entry => of_pure fun hentry => ?_
  refine Job.Spec.bind S.refl (lift_spec hK.toKept) fun manifest => of_pure fun hmanifest => ?_
  refine Job.Spec.bind S.refl (lift_spec hK.toKept) fun bytes => of_pure fun hconfig => ?_
  refine Job.Spec.bind S.refl (lift_spec hK.toKept) fun img => of_pure fun hparse => ?_
  dsimp only
  split
  · exact Job.Spec.throw hK.stable fun _ hs => Or.inl hs
  · rename_i hlen
    have hlen : img.layers.length = manifest.layers.length := not_not.mp hlen
    refine Job.Spec.bind S.refl (forM_store hK _ Prod.snd _ fun p _ K' hK' => ?_) fun _ => ?_
    · refine Job.Spec.bind S.refl (lift_spec hK'.toKept) fun compression => of_pure fun _ => ?_
      refine Job.Spec.bind S.refl (lift_spec hK'.toKept) fun path => of_pure fun _ => ?_
      exact storeLayer_spec hK'.toKept
    · have hgives : ∀ kind, OciGives x a { img with kind } := fun kind =>
        ⟨⟨index, entry, manifest, bytes, hindex, hentry, hmanifest, hconfig⟩, img, kind, hparse, rfl⟩
      refine Job.Spec.bind S.refl ((finish_spec hK img (hL _ (hgives img.kind))).pre ?_) fun img' => ?_
      · rintro s ⟨hs, hfound⟩
        refine ⟨hs, fun l hl => ?_⟩
        obtain ⟨p, hp, rfl⟩ := mem_zip_right hlen hl
        exact hfound p hp
      · refine Job.Spec.pure ?_ ?_
        · exact fun s s' hs hR => ⟨(hK.found img.layers).stable _ _ hs.1 hR, hs.2⟩
        · rintro s ⟨⟨hs, hfound⟩, kind, rfl⟩
          refine ⟨⟨hs, fun img' hi => ?_⟩, _, rfl, hgives kind⟩
          rw [List.mem_singleton.mp hi]
          exact hfound

section Pull
variable {net : Type} {src : Source net} {r : Reference} {digest : String} {manifest : Manifest} {conn : Conn net}

theorem exchange_spec {α : Type} {res : Except Registry.Error α × Conn net} (hK : S.Kept K) :
    S.Spec K (exchange res) (fun p s => K s ∧ res = (.ok p.1, p.2)) (fun _ => S.Astray K) := by
  obtain ⟨e | a, conn⟩ := res
  · exact Job.Spec.throw hK.stable fun _ hs => Or.inl hs
  · exact Job.Spec.pure hK.stable fun _ hs => ⟨hs, rfl⟩

theorem pullLayers_spec (hK : S.Filed K L) (items : List (Descriptor × String)) :
    S.Spec K (pullLayers x src r conn items) (fun _ s => K s ∧ ∀ p ∈ items, S.Found p.2 s) (fun _ => S.Astray K) := by
  induction items generalizing K conn with
  | nil => exact Job.Spec.pure hK.stable fun s hs => ⟨hs, nofun⟩
  | cons p rest ih =>
    have hK' := hK.found [p.2]
    have hrest : ∀ conn, S.Spec (fun s => K s ∧ S.Found p.2 s) (pullLayers x src r conn rest)
        (fun _ s => K s ∧ ∀ q ∈ p :: rest, S.Found q.2 s) (fun _ => S.Astray K) := by
      intro conn
      refine (ih hK').conseq ?_ ?_ fun _ _ hs => hs.imp fun _ hs => hs.1
      · exact fun s hs => ⟨hs.1, fun l hl => by rw [List.mem_singleton.mp hl]; exact hs.2⟩
      · rintro _ s ⟨⟨hs, hfirst⟩, hall⟩
        refine ⟨hs, fun q hq => ?_⟩
        rcases List.mem_cons.mp hq with rfl | hq
        · exact hfirst _ (List.mem_singleton_self _)
        · exact hall q hq
    refine Job.Spec.bind S.refl (exists_spec (l := p.2) hK.toKept) fun b => ?_
    cases b with
    | true => exact (hrest conn).pre fun s hs => ⟨hs.1, hs.2.1 rfl⟩
    | false =>
      refine Job.Spec.pre (P := K) ?_ fun s hs => hs.1
      refine Job.Spec.bind S.refl (lift_spec hK.toKept) fun compression => of_pure fun _ => ?_
      refine Job.Spec.bind S.refl (must_own hK.toKept) fun _ => ?_
      refine Job.Spec.bind S.refl (exchange_spec hK.toKept) fun got => of_pure fun _ => ?_
      refine Job.Spec.bind S.refl (storeLayer_spec hK.toKept) fun _ => ?_
      refine Job.Spec.bind S.refl (Q := fun _ s => K s ∧ S.Found p.2 s)
        ((must_own hK'.toKept).conseq ?_ ?_ fun _ _ hs => hs.imp fun _ hs => hs.1) fun _ => hrest _
      · exact fun s hs => ⟨hs.1, fun l hl => by rw [List.mem_singleton.mp hl]; exact hs.2⟩
      · exact fun _ s hs => ⟨hs.1, hs.2 _ (List.mem_singleton_self _)⟩

theorem pullStaged_spec (hK : S.Filed K L) (hL : ∀ img, PullGives x src r digest manifest conn img → L img.layers) :
    S.Spec K (pullStaged x src r digest manifest conn)
      (fun img s => (K s ∧ S.AllFound img s) ∧ PullGives x src r digest manifest conn img) (fun _ => S.Astray K) := by
  refine Job.Spec.bind S.refl (exchange_spec hK.toKept) fun got => of_pure fun hgot => ?_
  refine Job.Spec.bind S.refl (lift_spec hK.toKept) fun img => of_pure fun hparse => ?_
  split
  · exact Job.Spec.throw hK.stable fun _ hs => Or.inl hs
  · rename_i hlen
    have hlen : img.layers.length = manifest.layers.length := not_not.mp hlen
    have hgives : ∀ kind, PullGives x src r digest manifest conn { img with kind } :=
      fun kind => ⟨got.1, got.2, img, kind, hgot, hparse, rfl⟩
    refine Job.Spec.bind S.refl (pullLayers_spec hK _) fun _ => ?_
    refine (finish_spec hK img (hL _ (hgives img.kind))).conseq ?_ ?_ fun _ _ hs => hs
    · rintro s ⟨hs, hfound⟩
      refine ⟨hs, fun l hl => ?_⟩
      obtain ⟨p, hp, rfl⟩ := mem_zip_right hlen hl
      exact hfound p hp
    · rintro img' s ⟨hs, kind, rfl⟩
      exact ⟨hs, hgives kind⟩

/-- A job that works in a staging directory of its own, made before and removed after it. -/
theorem staged_spec {α : Type} {job : Work Tree α} {Q : α → Prop} {F : α → σ → Prop} (hK : S.Filed K L)
    (hF : ∀ a, Job.Stable S.R (F a)) (hkeep : ∀ a w s, S.may .own w s → F a s → F a (S.run .own w s).2)
    (hjob : S.Spec K job (fun a s => (K s ∧ F a s) ∧ Q a) (fun _ => S.Astray K)) :
    S.Spec K (do
      must .own rfl
      let result ← job.attempt
      let _ ← (must (.own : Op Tree) rfl).attempt
      Job.lift result) (fun a s => (K s ∧ F a s) ∧ Q a) (fun _ => S.Astray K) := by
  have hafter : Job.Stable S.R fun s => S.Astray K s := Astray.stable hK.toKept
  let After (r : Result α) (s : σ) : Prop := match r with
    | .ok a => (K s ∧ F a s) ∧ Q a
    | .error _ => S.Astray K s
  have hstable : ∀ r, Job.Stable S.R (After r) := by
    rintro (e | a) s s' hs hR
    · exact hafter _ _ hs hR
    · exact ⟨⟨hK.stable _ _ hs.1.1 hR, hF a _ _ hs.1.2 hR⟩, hs.2⟩
  refine Job.Spec.bind S.refl (must_own hK.toKept) fun _ => ?_
  refine Job.Spec.bind S.refl (Q := After) (Job.Spec.attempt hjob) fun result => ?_
  refine Job.Spec.bind S.refl (Q := fun _ => After result) (Job.Spec.attempt ?_) fun _ => ?_
  · refine must_idle (hstable result) (fun _ => hstable result) exec_own (fun s w hs hmay => ?_) fun _ _ hs => hs
    cases result with
    | error e =>
      have hs : S.Astray K s := hs
      exact Or.imp (fun hs => hK.idle exec_own nofun hs hmay) (fun hlost => (S.loses hmay hlost).2) hs
    | ok a =>
      exact ⟨⟨hK.idle exec_own nofun hs.1.1 hmay, hkeep a w s hmay hs.1.2⟩, hs.2⟩
  · cases result with
    | error e => exact Job.Spec.throw (hstable (.error e)) fun _ hs => hs
    | ok a => exact Job.Spec.pure (hstable (.ok a)) fun _ hs => hs

theorem AllFound.stable {img : ImageMeta} : Job.Stable S.R (S.AllFound img) :=
  fun _ _ hs hR l hl => Found.stable _ _ (hs l hl) hR

theorem AllFound.own {img : ImageMeta} {w : Fate Tree} {s : σ} (h : S.AllFound img s) (hmay : S.may .own w s) :
    S.AllFound img (S.run .own w s).2 :=
  fun l hl => (h l hl).keep hmay (.of_eq (by rw [S.next, exec_own]))

theorem exec_readMeta_disk (file : String) (w : Fate Tree) (d : Disk Tree) : (exec x (.readMeta file) w d).2 = d := by
  cases w <;> rfl

theorem exec_readMeta_ok {file : String} {w : Fate Tree} {d : Disk Tree} {img : ImageMeta}
    (h : (exec x (.readMeta file) w d).1 = .ok img) : d.metas.get? file = some (.whole img) := by
  have hread : readMetaFile d file = .ok img := by
    cases w <;> first | exact h | cases h
  unfold readMetaFile at hread
  split at hread
  · rename_i img' hget
    cases hread
    exact hget
  · cases hread
  · cases hread

/-- What is asked of an image that a pull returns: that its layers are there, or nothing. -/
structure Passed (S : Setting x σ) (K : σ → Prop) (F : ImageMeta → σ → Prop) : Prop where
  kept : ∀ img, S.Kept fun s => K s ∧ F img s
  stored : ∀ s file img, K s → (S.disk s).metas.get? file = some (.whole img) → F img s
  found : ∀ s img, K s → S.AllFound img s → F img s

variable {F : ImageMeta → σ → Prop}

theorem get_spec (hK : S.Kept K) (hF : S.Passed K F) (name : String) :
    S.Spec K (get name) (fun img s => K s ∧ F img s) (fun _ => K) := by
  have hstable : ∀ a : Result ImageMeta, Job.Stable S.R fun s => K s ∧ ∀ img, a = .ok img → F img s :=
    fun a s s' hs hR => ⟨hK.stable _ _ hs.1 hR, fun img ha => ((hF.kept img).stable _ _ ⟨hs.1, hs.2 img ha⟩ hR).2⟩
  refine Job.Spec.bind S.refl (Q := fun a s => K s ∧ ∀ img, a = .ok img → F img s)
    (Job.Spec.ask hK.stable hstable fun s w hs hmay => ?_) fun a => ?_
  · have hdisk : S.disk (S.run (.readMeta (metaFile name)) w s).2 = S.disk s := by
      rw [S.next, exec_readMeta_disk]
    refine ⟨S.moves hmay (moves_of_eq hdisk), hK.idle (exec_readMeta_disk _) nofun hs hmay, fun img hok => ?_⟩
    rw [S.ans] at hok
    exact ((hF.kept img).idle (exec_readMeta_disk _) nofun ⟨hs, hF.stored s _ img hs (exec_readMeta_ok hok)⟩ hmay).2
  · rcases a with e | img
    · refine Job.Spec.pre (P := K) ?_ fun s hs => hs.1
      dsimp only
      split <;> exact Job.Spec.throw hK.stable fun _ hs => hs
    · exact Job.Spec.pure (hstable _) fun s hs => ⟨hs.1, hs.2 img rfl⟩

theorem allPresent_spec {E : Error → σ → Prop} (hK : S.Kept K) (ls : List String) :
    S.Spec K (allPresent ls) (fun _ => K) E := by
  induction ls with
  | nil => exact Job.Spec.pure hK.stable fun _ hs => hs
  | cons l rest ih =>
    refine Job.Spec.bind S.refl (look_spec (.pathExists (layerDir l)) hK (exec_pathExists_disk _) nofun) fun b => ?_
    cases b with
    | true => exact ih
    | false => exact Job.Spec.pure hK.stable fun _ hs => hs

theorem pullFresh_spec (hK : S.Filed K L) (hL : ∀ img, PullGives x src r digest manifest conn img → L img.layers) :
    S.Spec K (pullFresh x src r digest manifest conn)
      (fun img s => (K s ∧ S.AllFound img s) ∧ PullGives x src r digest manifest conn img) (fun _ => S.Astray K) :=
  staged_spec hK (fun _ => AllFound.stable) (fun _ _ _ hmay h => h.own hmay) (pullStaged_spec hK hL)

theorem get_attempt (hK : S.Kept K) (hF : S.Passed K F) (name : String) {E : Error → σ → Prop} :
    S.Spec K (get name).attempt (fun q s => K s ∧ ∀ img, q = .ok img → F img s) E := by
  refine Job.Spec.attempt ((get_spec hK hF name).conseq (fun _ hs => hs) ?_ ?_)
  · rintro img s ⟨hs, hfound⟩
    refine ⟨hs, fun img' h => ?_⟩
    cases h
    exact hfound
  · exact fun e s hs => ⟨hs, nofun⟩

theorem pullAndImport_spec (hK : S.Filed K fun _ => True) (hF : S.Passed K F) :
    S.Spec K (pullAndImport x src r conn) (fun img s => K s ∧ F img s) (fun _ => S.Astray K) := by
  have hfresh : ∀ digest manifest (conn : Conn net), S.Spec K (pullFresh x src r digest manifest conn)
      (fun img s => K s ∧ F img s) (fun _ => S.Astray K) := fun digest manifest conn =>
    (pullFresh_spec hK fun _ _ => trivial).conseq (fun _ hs => hs)
      (fun img s hs => ⟨hs.1.1, hF.found s img hs.1.1 hs.1.2⟩) fun _ _ hs => hs
  refine Job.Spec.bind S.refl (exchange_spec hK.toKept) fun got => of_pure fun _ => ?_
  obtain ⟨⟨digest, manifest⟩, conn'⟩ := got
  refine Job.Spec.bind S.refl (get_attempt hK.toKept hF _) fun q => ?_
  rcases q with e | existing
  · exact (hfresh _ _ _).pre fun s hs => hs.1
  · refine Job.Spec.pre (P := fun s => K s ∧ F existing s) ?_ fun s hs => ⟨hs.1, hs.2 existing rfl⟩
    dsimp only
    split
    · refine Job.Spec.bind S.refl (allPresent_spec (hF.kept existing) existing.layers) fun b => ?_
      cases b with
      | true => exact Job.Spec.pure (hF.kept existing).stable fun _ hs => hs
      | false => exact (hfresh _ _ _).pre fun s hs => hs.1
    · exact (hfresh _ _ _).pre fun s hs => hs.1

theorem ensurePulled_spec (hK : S.Filed K fun _ => True) (hF : S.Passed K F) (policy : PullPolicy) :
    S.Spec K (ensurePulled x src r conn policy) (fun img s => K s ∧ F img s) (fun _ => S.Astray K) := by
  have hthere : ∀ img, S.Spec (fun s => K s ∧ ∀ img', (Except.ok img : Result ImageMeta) = .ok img' → F img' s)
      (pure img : Work Tree ImageMeta) (fun img s => K s ∧ F img s) (fun _ => S.Astray K) := fun img =>
    (Job.Spec.pure (hF.kept img).stable fun _ hs => hs).pre fun s hs => ⟨hs.1, hs.2 img rfl⟩
  have hthrow : ∀ (e : Error) (q : Result ImageMeta), S.Spec (fun s => K s ∧ ∀ img, q = .ok img → F img s)
      (Job.throw e : Work Tree ImageMeta) (fun img s => K s ∧ F img s) (fun _ => S.Astray K) := fun e q =>
    (Job.Spec.throw hK.stable fun _ hs => Or.inl hs).pre fun s hs => hs.1
  cases policy with
  | always => exact pullAndImport_spec hK hF
  | missing =>
    refine Job.Spec.bind S.refl (get_attempt hK.toKept hF _) fun q => ?_
    rcases q with e | img
    · split
      · rename_i heq
        cases heq
      · exact (pullAndImport_spec hK hF).pre fun s hs => hs.1
      · exact hthrow _ _
    · exact hthere img
  | never =>
    refine Job.Spec.bind S.refl (get_attempt hK.toKept hF _) fun q => ?_
    rcases q with e | img
    · exact hthrow _ _
    · exact hthere img

theorem importArchive_spec (hK : S.Filed K fun _ => True) (unpacked : Result Archive) :
    S.Spec K (importArchive x unpacked) (fun imgs s => K s ∧ ∀ img ∈ imgs, S.AllFound img s) (fun _ => S.Astray K) := by
  refine (staged_spec (Q := fun _ => True) (F := fun imgs s => ∀ img ∈ imgs, S.AllFound img s) hK
    (fun _ _ _ hs hR img hi => AllFound.stable _ _ (hs img hi) hR) (fun _ _ _ hmay h img hi =>
      (h img hi).own hmay) ?_).conseq
    (fun _ hs => hs) (fun _ _ hs => hs.1) fun _ _ hs => hs
  refine Job.Spec.bind S.refl (lift_spec hK.toKept) fun a => of_pure fun _ => ?_
  split
  · exact (importDockerArchive_spec hK fun _ _ _ _ _ _ => trivial).conseq (fun _ hs => hs)
      (fun _ _ hs => ⟨hs.1, trivial⟩) fun _ _ hs => hs
  · split
    · exact (importOciLayout_spec hK fun _ _ => trivial).conseq (fun _ hs => hs) (fun _ _ hs =>
        ⟨hs.1, trivial⟩) fun _ _ hs => hs
    · exact Job.Spec.throw hK.stable fun _ hs => Or.inl hs

end Pull

end Setting

end Collocate.Image
