import SpellChecker.Pipeline.Bounds

open checker comparator edit_script lines
open spellcheck.candidates spellcheck.dictionary spellcheck.mpi spellcheck.slice

namespace spellcheck.pipeline

end spellcheck.pipeline
