import WordProblem.Grammar.History
import WordProblem.Grammar.Language
import WordProblem.Main
import WordProblem.Proofs.Command.Answers
import WordProblem.Proofs.Normal.Capacity
import WordProblem.Proofs.Normal.Passes
import WordProblem.Proofs.Normal.Splitting
import WordProblem.Proofs.Normal.Usefulness
import WordProblem.Proofs.Recognizer.Adoption
import WordProblem.Proofs.Recognizer.Recognition
import WordProblem.Proofs.Recognizer.Reuse
import WordProblem.Session
import WordProblem.Proofs.Normal.Isolation
import WordProblem.Proofs.Normal.Unfolding
import WordProblem.Proofs.Normal.Captured
import WordProblem.Proofs.Normal.Repetition
import WordProblem.Proofs.Description.Union
import WordProblem.Proofs.Description.Plain
import WordProblem.Proofs.Description.Commented
import WordProblem.Proofs.Checked.Recognizers
import WordProblem.Proofs.Scanning
