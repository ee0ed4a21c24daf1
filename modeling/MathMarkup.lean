import MathMarkup.Main
import MathMarkup.Proofs.Arity
import MathMarkup.Proofs.BareScripts
import MathMarkup.Proofs.Cells
import MathMarkup.Proofs.Columns
import MathMarkup.Proofs.Composition
import MathMarkup.Proofs.Conservation
import MathMarkup.Proofs.Constructions
import MathMarkup.Proofs.Converting
import MathMarkup.Proofs.Descending
import MathMarkup.Proofs.Digits
import MathMarkup.Proofs.Embedding
import MathMarkup.Proofs.Entries
import MathMarkup.Proofs.EnvironmentCommands
import MathMarkup.Proofs.ErrorPlaces
import MathMarkup.Proofs.FinalBreaks
import MathMarkup.Proofs.Layers
import MathMarkup.Proofs.Legality
import MathMarkup.Proofs.Lengths
import MathMarkup.Proofs.Limits
import MathMarkup.Proofs.Nesting
import MathMarkup.Proofs.Offsets
import MathMarkup.Proofs.Peeking
import MathMarkup.Proofs.Prepended
import MathMarkup.Proofs.Preview
import MathMarkup.Proofs.Range
import MathMarkup.Proofs.RawArguments
import MathMarkup.Proofs.Rows
import MathMarkup.Proofs.Schedule
import MathMarkup.Proofs.Serving
import MathMarkup.Proofs.Styles
import MathMarkup.Proofs.SyntaxErrors
import MathMarkup.Proofs.TableRuns
import MathMarkup.Proofs.TableUse
import MathMarkup.Proofs.Tiling
import MathMarkup.Proofs.Writing
